import Montage.Library.Folds
import Montage.Recover.Image

namespace Montage.Recover.Nonblocking
open Library Function List

structure FirstPass where
  scan : Scan
  descsLocal : Nat → Option Block

def firstStep (l : FirstPass) (b : Block) : FirstPass where
  scan := l.scan.note b
  descsLocal :=
    if b.blktype = .desc then update l.descsLocal b.tid (some b) else l.descsLocal

def firstPass (part : List Block) : FirstPass :=
  part.foldl firstStep ⟨⟨0,[],∅,false⟩,fun _ => none⟩

def mergedDescs (locals : List FirstPass) : Nat → Option Block :=
  locals.foldl (fun descs l t => (descs t).or (l.descsLocal t)) fun _ => none

/-- The transaction of `b` is not registered with its descriptor, or it is but has not
committed. -/
def unregistered (descs : Nat → Option Block) (b : Block) : Except Fault Bool :=
  match descs b.tid with
  | none => .error .nullPointer
  | some d => .ok (b.sn > d.sn || (b.sn = d.sn && !d.committed))

def premature (epochCap : Nat) (descs : Nat → Option Block) (n : Block) : Except Fault Bool :=
  if n.epoch > epochCap then .ok true else unregistered descs n

def removePremature (epochCap : Nat) (descs : Nat → Option Block) (l : FirstPass) :
    Except Fault (Finset Nat) :=
  l.scan.antiNodesLocal.foldlM (fun ids n => do
    if ← premature epochCap descs n then return ids.erase n.id else return ids)
    l.scan.deletedIdsLocal

def secondStep (clean : Bool) (deletedIds : Finset Nat) (epochCap : Nat)
    (descs : Nat → Option Block) (s : Kept Block) (b : Block) : Except Fault (Kept Block) :=
  if b.discardable then
    if b.epoch = nullEpoch || b.epoch > epochCap || b.id ∈ deletedIds then .ok (s.pass b)
    else do
      if ← unregistered descs b then return s.pass b else settle clean false s b
  else settle clean false s b

def secondPass (clean : Bool) (deletedIds : Finset Nat) (epochCap : Nat)
    (descs : Nat → Option Block) (part : List Block) : Except Fault (Kept Block) :=
  part.foldlM (secondStep clean deletedIds epochCap descs) ⟨[],[]⟩

structure Recovered where
  inUse : Kept Block
  freed : List Block
  deletedIds : Finset Nat

/-- Thread `r` computes its cut-off after it has reported its maximum but before the
barrier, when threads up to `seen r` have reported. -/
def epochCap (seen : Nat → Nat) (locals : List FirstPass) (r : Nat) : Nat :=
  sub64 ((locals.take (seen r + 1)).foldl (fun m l => max m l.scan.maxEpochLocal) 0) 2

/-- `nbEpochSys::recover`, over the blocks that the two iterations of the allocator hand
to the recovery threads. -/
def recover (clean : Bool) (iter : List Block → List Block) (seen : Nat → Nat)
    (parts₁ parts₂ : List (List Block)) : Except Fault Recovered := do
  let locals := parts₁.map firstPass
  if locals.any fun l => l.scan.container then
    let descs := mergedDescs locals
    let sets ← locals.zipIdx.mapM fun l => removePremature (epochCap seen locals l.2) descs l.1
    let deletedIds := sets.foldl (· ∪ ·) ∅
    let passes ← parts₂.zipIdx.mapM fun part =>
      secondPass clean deletedIds (epochCap seen locals part.2) descs part.1
    let inUse := passes.foldl (merge iter) ⟨[],[]⟩
    let antiNodes := locals.flatMap fun l => l.scan.antiNodesLocal
    return ⟨inUse,(inUse.passed ++ antiNodes).map Block.reset,deletedIds⟩
  else .error (.errexit "epoch container not found during recovery")

variable (blocks : List Block)

/-- The transaction of `b` is older than the descriptor of its thread, or is the one the
descriptor stands for and has committed. -/
def Registered (b : Block) : Prop :=
  ∃ d ∈ blocks, d.blktype = .desc ∧ d.tid = b.tid ∧ (b.sn < d.sn ∨ b.sn = d.sn ∧ d.committed)

instance (b : Block) : Decidable (Registered blocks b) :=
  inferInstanceAs (Decidable (∃ d ∈ blocks, d.blktype = .desc ∧ d.tid = b.tid ∧
    (b.sn < d.sn ∨ b.sn = d.sn ∧ d.committed)))

def Premature (cap : Nat) (n : Block) : Prop :=
  cap < n.epoch ∨ ¬ Registered blocks n

instance (cap : Nat) (n : Block) : Decidable (Premature blocks cap n) :=
  inferInstanceAs (Decidable (_ ∨ _))

/-- A version of a payload that is durable and belongs to a committed transaction. -/
def Mature (b : Block) : Prop :=
  b ∈ blocks ∧ b.isPayload ∧ b.epoch ≠ nullEpoch ∧ b.epoch ≤ sub64 (maxEpoch blocks) 2 ∧
    Registered blocks b

instance (b : Block) : Decidable (Mature blocks b) :=
  inferInstanceAs (Decidable (_ ∧ _))

/-- The deletion of an id is durable and belongs to a committed transaction. -/
def Deleted (i : Nat) : Prop :=
  ∃ d ∈ blocks, d.blktype = .delete ∧ d.id = i ∧ d.epoch ≠ nullEpoch ∧
    d.epoch ≤ sub64 (maxEpoch blocks) 2 ∧ Registered blocks d

instance (i : Nat) : Decidable (Deleted blocks i) :=
  inferInstanceAs (Decidable (∃ d ∈ blocks, d.blktype = .delete ∧ d.id = i ∧
    d.epoch ≠ nullEpoch ∧ d.epoch ≤ sub64 (maxEpoch blocks) 2 ∧ Registered blocks d))

/-- A heap image with at most one descriptor per thread. -/
structure Image : Prop where
  descs : ∀ d ∈ blocks, ∀ d' ∈ blocks, d.blktype = .desc → d'.blktype = .desc →
    d.tid = d'.tid → d = d'
  uint64 : maxEpoch blocks ≤ uint64Max

/-- The block is absent from the recovered map, because its id counts as deleted. -/
def Lost (out : Recovered) (b : Block) : Prop :=
  out.inUse.find? Block.id b.id = none ∧ b.id ∈ out.deletedIds

/-- The part of recovery thread `r` has an anti-node of the id, and no anti-node of the id
in this part is premature at the cut-off of the thread. -/
def Witnessed (seen : Nat → Nat) (parts : List (List Block)) (i : Nat) :
    Prop :=
  ∃ p ∈ parts.zipIdx,
    (∃ d ∈ p.1, d.blktype = .delete ∧ d.epoch ≠ nullEpoch ∧ d.id = i) ∧
    ∀ n ∈ p.1, n.blktype = .delete → n.id = i →
      ¬ Premature blocks (sub64 (maxEpoch (parts.take (seen p.2 + 1)).flatten) 2) n

instance (seen : Nat → Nat) (parts : List (List Block)) (i : Nat) :
    Decidable (Witnessed blocks seen parts i) :=
  inferInstanceAs (Decidable (∃ p ∈ parts.zipIdx, _))

variable {blocks part : List Block} {parts : List (List Block)} {descs : Nat → Option Block}

theorem first_pass_append (part : List Block) (b : Block) :
    firstPass (part ++ [b]) = firstStep (firstPass part) b := by
  rw [firstPass,foldl_append]
  rfl

theorem first_pass_scan (part : List Block) : (firstPass part).scan.Of part := by
  induction part using reverseRecOn with
  | nil => exact empty_of
  | append_singleton _ b ih =>
    rw [first_pass_append]
    exact ih.note b

theorem first_pass_descs (h : (firstPass part).descsLocal t = some d) :
    d ∈ part ∧ d.blktype = .desc ∧ d.tid = t := by
  induction part using reverseRecOn with
  | nil => cases h
  | append_singleton part b ih =>
    rw [first_pass_append,firstStep] at h
    simp only at h
    by_cases hb : b.blktype = .desc ∧ t = b.tid
    · obtain ⟨hdesc,rfl⟩ := hb
      rw [if_pos hdesc,update_self] at h
      cases h
      exact ⟨by simp,hdesc,rfl⟩
    · have hold : (firstPass part).descsLocal t = some d := by
        by_cases hdesc : b.blktype = .desc
        · rw [if_pos hdesc,update_of_ne fun ht => hb ⟨hdesc,ht⟩] at h
          exact h
        · rw [if_neg hdesc] at h
          exact h
      obtain ⟨hd,hrest⟩ := ih hold
      exact ⟨mem_append_left _ hd,hrest⟩

theorem first_pass_described (hd : d ∈ part) (hdesc : d.blktype = .desc) :
    (firstPass part).descsLocal d.tid ≠ none := by
  induction part using reverseRecOn with
  | nil => simp at hd
  | append_singleton _ b ih =>
    rw [first_pass_append,firstStep]
    rcases mem_append.mp hd with hd | hd
    · by_cases hb : b.blktype = .desc
      · by_cases ht : d.tid = b.tid
        · simp [hb,ht]
        · simpa [hb,ht] using ih hd
      · simpa [hb] using ih hd
    · rw [mem_singleton.mp hd] at hdesc ⊢
      simp [hdesc]

theorem merged_descs_some (locals : List FirstPass) (h : mergedDescs locals t = some d) :
    ∃ l ∈ locals, l.descsLocal t = some d := by
  have hfold : ∀ descs : Nat → Option Block,
      locals.foldl (fun descs l t => (descs t).or (l.descsLocal t)) descs t = some d →
      descs t = some d ∨ ∃ l ∈ locals, l.descsLocal t = some d := by
    clear h
    induction locals with
    | nil => intro descs h; exact .inl h
    | cons l _ ih =>
      intro descs h
      rcases ih _ h with h | h
      · rcases Option.or_eq_some_iff.mp h with h | h
        · exact .inl h
        · exact .inr ⟨l,by simp,h.2⟩
      · obtain ⟨l',hl',h⟩ := h
        exact .inr ⟨l',by simp [hl'],h⟩
  rcases hfold _ h with h | h
  · cases h
  · exact h

theorem merged_descs_ne_none (locals : List FirstPass) (hl : l ∈ locals)
    (h : l.descsLocal t ≠ none) : mergedDescs locals t ≠ none := by
  have hfold : ∀ descs : Nat → Option Block, (descs t ≠ none ∨ l ∈ locals) →
      locals.foldl (fun descs l t => (descs t).or (l.descsLocal t)) descs t ≠ none := by
    clear hl
    induction locals with
    | nil =>
      intro descs hd
      exact hd.resolve_right (by simp)
    | cons _ _ ih =>
      intro descs hd
      rw [foldl_cons]
      apply ih
      rcases hd with hd | hd
      · exact .inl (by simp [Option.or_eq_none_iff,hd])
      · rcases mem_cons.mp hd with heq | hd
        · exact .inl (by simp [Option.or_eq_none_iff,← heq,h])
        · exact .inr hd
  exact hfold _ (.inr hl)

/-- With one descriptor per thread the merged map has the descriptors of the image. -/
theorem merged_descs_iff (hi : Image blocks) (hp : parts.flatten.Perm blocks) :
    mergedDescs (parts.map firstPass) t = some d ↔
      d ∈ blocks ∧ d.blktype = .desc ∧ d.tid = t := by
  have hsome : ∀ d, mergedDescs (parts.map firstPass) t = some d →
      d ∈ blocks ∧ d.blktype = .desc ∧ d.tid = t := by
    intro d h
    obtain ⟨l,hl,h⟩ := merged_descs_some _ h
    obtain ⟨part,hpart,rfl⟩ := mem_map.mp hl
    obtain ⟨hd,hdesc,ht⟩ := first_pass_descs h
    exact ⟨hp.subset (mem_flatten.mpr ⟨part,hpart,hd⟩),hdesc,ht⟩
  constructor
  · exact hsome d
  · intro h
    obtain ⟨hd,hdesc,rfl⟩ := h
    obtain ⟨part,hpart,hdp⟩ := mem_flatten.mp (hp.symm.subset hd)
    have hne := merged_descs_ne_none (parts.map firstPass)
      (mem_map.mpr ⟨part,hpart,rfl⟩) (first_pass_described hdp hdesc)
    obtain ⟨d',hd'⟩ := Option.ne_none_iff_exists'.mp hne
    obtain ⟨hmem,hdesc',ht⟩ := hsome d' hd'
    rw [hd',hi.descs d' hmem d hd hdesc' hdesc ht]

theorem unregistered_iff (hi : Image blocks)
    (hdescs : ∀ t d, descs t = some d ↔ d ∈ blocks ∧ d.blktype = .desc ∧ d.tid = t)
    (h : unregistered descs b = .ok r) : r = true ↔ ¬ Registered blocks b := by
  unfold unregistered at h
  cases hd : descs b.tid with
  | none => rw [hd] at h; cases h
  | some d =>
    rw [hd] at h
    cases h
    obtain ⟨hmem,hdesc,ht⟩ := (hdescs _ _).mp hd
    simp only [Bool.or_eq_true,Bool.and_eq_true,decide_eq_true_eq,Bool.not_eq_true']
    constructor
    · intro hlate hreg
      obtain ⟨d',hmem',hdesc',ht',hreg⟩ := hreg
      cases hi.descs d' hmem' d hmem hdesc' hdesc (ht'.trans ht.symm)
      rcases hlate with hlt | ⟨heq,hc⟩
      · omega
      · rw [hc] at hreg
        simp only [Bool.false_eq_true,and_false,or_false] at hreg
        omega
    · intro hnot
      by_contra hcon
      rw [not_or,not_and] at hcon
      refine hnot ⟨d,hmem,hdesc,ht,?_⟩
      by_cases heq : b.sn = d.sn
      · exact .inr ⟨heq,by simpa using hcon.2 heq⟩
      · exact .inl (by omega)

theorem premature_iff (hi : Image blocks)
    (hdescs : ∀ t d, descs t = some d ↔ d ∈ blocks ∧ d.blktype = .desc ∧ d.tid = t)
    (h : premature cap descs n = .ok r) : r = true ↔ Premature blocks cap n := by
  unfold premature at h
  split at h
  next hlt =>
    cases h
    exact ⟨fun _ => .inl hlt,fun _ => rfl⟩
  next hle =>
    rw [unregistered_iff hi hdescs h]
    exact ⟨.inr,fun hp => hp.resolve_left hle⟩

/-- An id stays in the set of a thread when none of the thread's anti-nodes of the id is
premature, and it was there. -/
theorem mem_remove_premature (hi : Image blocks)
    (hdescs : ∀ t d, descs t = some d ↔ d ∈ blocks ∧ d.blktype = .desc ∧ d.tid = t)
    (h : removePremature cap descs l = .ok ids) :
    i ∈ ids ↔ i ∈ l.scan.deletedIdsLocal ∧
      ∀ n ∈ l.scan.antiNodesLocal, n.id = i → ¬ Premature blocks cap n := by
  unfold removePremature at h
  generalize l.scan.antiNodesLocal = ns at h
  generalize l.scan.deletedIdsLocal = start at h
  induction ns generalizing start with
  | nil => cases h; simp
  | cons n _ ih =>
    rw [foldlM_cons] at h
    cases hr : premature cap descs n with
    | error => simp only [hr,bind,Except.bind] at h; cases h
    | ok r =>
      simp only [hr,bind,Except.bind] at h
      have hiff := premature_iff hi hdescs hr
      cases r with
      | true =>
        rw [ih _ h,Finset.mem_erase]
        have hprem := hiff.mp rfl
        simp only [mem_cons,forall_eq_or_imp]
        constructor
        · intro hm
          exact ⟨hm.1.2,fun heq => absurd heq.symm hm.1.1,hm.2⟩
        · intro hm
          exact ⟨⟨fun heq => hm.2.1 heq.symm hprem,hm.1⟩,hm.2.2⟩
      | false =>
        rw [ih _ h]
        have hnot : ¬ Premature blocks cap n := fun hp => by simpa using hiff.mpr hp
        simp [hnot]

theorem epoch_cap_eq (seen : Nat → Nat) (parts : List (List Block)) (r : Nat) :
    epochCap seen (parts.map firstPass) r =
      sub64 (maxEpoch (parts.take (seen r + 1)).flatten) 2 := by
  have hscans : ∀ ps : List (List Block),
      Forall₂ (fun part l => l.Of part) ps (ps.map fun part => (firstPass part).scan) := by
    intro ps
    rw [forall₂_map_right_iff,forall₂_same]
    exact fun part _ => first_pass_scan part
  have hmax := locals_max (hscans (parts.take (seen r + 1)))
  rw [foldl_map] at hmax
  rw [epochCap,← map_take,foldl_map,hmax]

theorem mem_foldl_union (sets : List (Finset Nat)) :
    i ∈ sets.foldl (· ∪ ·) ∅ ↔ ∃ ids ∈ sets, i ∈ ids := by
  have hfold : ∀ start : Finset Nat,
      i ∈ sets.foldl (· ∪ ·) start ↔ i ∈ start ∨ ∃ ids ∈ sets, i ∈ ids := by
    induction sets with
    | nil => simp
    | cons _ _ ih =>
      intro start
      rw [foldl_cons,ih,Finset.mem_union]
      simp [or_assoc]
  simpa using hfold ∅

variable {parts₁ parts₂ : List (List Block)} {seen : Nat → Nat} {iter : List Block → List Block}

theorem recover_ok (h : recover clean iter seen parts₁ parts₂ = .ok out) :
    ∃ sets passes,
      (parts₁.map firstPass).zipIdx.mapM (fun l => removePremature
        (epochCap seen (parts₁.map firstPass) l.2) (mergedDescs (parts₁.map firstPass)) l.1) =
        .ok sets ∧
      out.deletedIds = sets.foldl (· ∪ ·) ∅ ∧
      parts₂.zipIdx.mapM (fun part => secondPass clean out.deletedIds
        (epochCap seen (parts₁.map firstPass) part.2) (mergedDescs (parts₁.map firstPass))
        part.1) = .ok passes ∧
      out.inUse = passes.foldl (merge iter) ⟨[],[]⟩ := by
  simp only [recover,bind,Except.bind] at h
  split at h
  next =>
    split at h
    next => cases h
    next sets hsets =>
      split at h
      next => cases h
      next passes hpasses =>
        cases h
        exact ⟨sets,passes,hsets,rfl,hpasses,rfl⟩
  next => cases h

theorem merged_iff_witnessed (hi : Image blocks) (h₁ : parts₁.flatten.Perm blocks)
    (h : (parts₁.map firstPass).zipIdx.mapM (fun l => removePremature
      (epochCap seen (parts₁.map firstPass) l.2) (mergedDescs (parts₁.map firstPass)) l.1) =
      .ok sets) :
    i ∈ sets.foldl (· ∪ ·) ∅ ↔ Witnessed blocks seen parts₁ i := by
  have hdescs : ∀ t d, mergedDescs (parts₁.map firstPass) t = some d ↔
      d ∈ blocks ∧ d.blktype = .desc ∧ d.tid = t := fun t d => merged_descs_iff hi h₁
  rw [mem_foldl_union]
  rw [zipIdx_map,mapM_map] at h
  rw [exists_mem_forall₂ (mapM_forall₂ _ _ _ h) (P := fun p : List Block × Nat =>
    (∃ d ∈ p.1, d.blktype = .delete ∧ d.epoch ≠ nullEpoch ∧ d.id = i) ∧
    ∀ n ∈ p.1, n.blktype = .delete → n.id = i →
      ¬ Premature blocks (sub64 (maxEpoch (parts₁.take (seen p.2 + 1)).flatten) 2) n)]
  · rfl
  · intro p ids hids
    simp only [Function.comp_apply,Prod.map_fst,Prod.map_snd,id_eq,epoch_cap_eq] at hids
    have hscan := first_pass_scan p.1
    rw [mem_remove_premature hi hdescs hids,hscan.deleted,hscan.antiNodes]
    simp only [mem_filter,decide_eq_true_eq,and_imp]

theorem deleted_iff_witnessed (hi : Image blocks) (h₁ : parts₁.flatten.Perm blocks)
    (h : recover clean iter seen parts₁ parts₂ = .ok out) :
    i ∈ out.deletedIds ↔ Witnessed blocks seen parts₁ i := by
  obtain ⟨sets,_,hsets,hdeleted,-,-⟩ := recover_ok h
  rw [hdeleted]
  exact merged_iff_witnessed hi h₁ hsets

theorem second_pass_kept (h : secondPass clean deletedIds cap descs part = .ok s)
    (hy : y ∈ s.kept) : y.id ∉ deletedIds := by
  refine foldlM_invariant _ (fun s : Kept Block => ∀ y ∈ s.kept, y.id ∉ deletedIds) part _ s
    (by simp) ?_ h y hy
  intro s s' b _ hs hstep y hy
  unfold secondStep at hstep
  split at hstep
  next =>
    split at hstep
    next => cases hstep; exact hs y hy
    next hkeep =>
      simp only [Bool.or_eq_true,decide_eq_true_eq,not_or] at hkeep
      cases hr : unregistered descs b with
      | error => simp only [hr,bind,Except.bind] at hstep; cases hstep
      | ok =>
        simp only [hr,bind,Except.bind] at hstep
        split at hstep
        next => cases hstep; exact hs y hy
        next =>
          rcases mem_settle hstep hy with hy | ⟨rfl,-⟩
          · exact hs y hy
          · exact hkeep.2
  next hspecial =>
    rcases mem_settle hstep hy with hy | ⟨rfl,hpayload⟩
    · exact hs y hy
    · -- payloads are discardable, so this case does not arise
      refine absurd ?_ hspecial
      simp only [Block.isPayload,Bool.or_eq_true,decide_eq_true_eq] at hpayload
      rcases hpayload with hp | hp <;> simp [Block.discardable,hp]

theorem find_of_deleted (hiter : ∀ l, (iter l).Perm l)
    (h : recover clean iter seen parts₁ parts₂ = .ok out) (hid : i ∈ out.deletedIds) :
    out.inUse.find? Block.id i = none := by
  obtain ⟨sets,passes,-,-,hpasses,hinUse⟩ := recover_ok h
  have hkept : ∀ y ∈ out.inUse.kept, y.id ∉ out.deletedIds := by
    intro y hy
    rw [hinUse] at hy
    rcases mem_merge hiter passes hy with hy | ⟨s,hs,hy⟩
    · cases hy
    · obtain ⟨p,-,hp⟩ := exists_of_mem_forall₂ (mapM_forall₂ _ _ _ hpasses) hs
      exact second_pass_kept hp hy
  cases hf : out.inUse.find? Block.id i with
  | none => rfl
  | some y =>
    obtain ⟨hy,hk⟩ := Kept.find?_some hf
    exact absurd (hk ▸ hid) (hkept y hy)

/-- The code never takes a mature payload for deleted without a reason: an anti-node that
counts at the cut-off of its thread also counts at the final one. -/
theorem witnessed_deleted (hi : Image blocks) (h₁ : parts₁.flatten.Perm blocks)
    (hseen : ∀ r, r ≤ seen r) (hb : Mature blocks b) (hw : Witnessed blocks seen parts₁ i) :
    Deleted blocks i := by
  obtain ⟨⟨part,r⟩,hp,⟨d,hd,hdel,hnull,hid⟩,hnone⟩ := hw
  obtain ⟨hle,hget⟩ := mem_zipIdx' hp
  have hpart : part ∈ parts₁ := by rw [hget]; exact getElem_mem _
  have hmem : d ∈ blocks := h₁.subset (mem_flatten.mpr ⟨part,hpart,hd⟩)
  have hkeep := hnone d hd hdel hid
  simp only [Premature,not_or,not_not,not_lt] at hkeep
  have hsub : (parts₁.take (seen r + 1)).flatten ⊆ blocks := by
    intro x hx
    obtain ⟨q,hq,hxq⟩ := mem_flatten.mp hx
    exact h₁.subset (mem_flatten.mpr ⟨q,mem_of_mem_take hq,hxq⟩)
  have hdseen : d ∈ (parts₁.take (seen r + 1)).flatten := by
    refine mem_flatten.mpr ⟨part,?_,hd⟩
    rw [mem_take_iff_getElem]
    refine ⟨r,?_,hget.symm⟩
    have := hseen r
    simp only [lt_min_iff]
    omega
  -- the cut-off wraps around below epoch 2, where only epoch 1 is in question
  have hmax := max_epoch_mono hsub
  have hdmax := epoch_le_max hdseen
  have h64 := hi.uint64
  obtain ⟨-,-,hbnull,hbcap,-⟩ := hb
  have hcap := hkeep.1
  refine ⟨d,hmem,hdel,hid,hnull,?_,hkeep.2⟩
  simp only [sub64,nullEpoch,uint64Max] at *
  omega

/-- Recovery honours the durable deletions of an image exactly when each of them is
witnessed by a recovery thread that holds no premature anti-node of the same id. -/
theorem deletions_honoured_iff (hi : Image blocks) (hiter : ∀ l, (iter l).Perm l)
    (hseen : ∀ r, r ≤ seen r) (h₁ : parts₁.flatten.Perm blocks)
    (h : recover clean iter seen parts₁ parts₂ = .ok out) :
    (∀ b, Mature blocks b → (Lost out b ↔ Deleted blocks b.id)) ↔
      ∀ b, Mature blocks b → Deleted blocks b.id → Witnessed blocks seen parts₁ b.id := by
  have hlost : ∀ b, Lost out b ↔ Witnessed blocks seen parts₁ b.id := by
    intro b
    rw [← deleted_iff_witnessed hi h₁ h]
    exact ⟨fun hl => hl.2,fun hd => ⟨find_of_deleted hiter h hd,hd⟩⟩
  constructor
  · intro hall b hb hd
    exact (hlost b).mp ((hall b hb).mpr hd)
  · intro hall b hb
    rw [hlost]
    exact ⟨witnessed_deleted hi h₁ hseen hb,hall b hb⟩

/-- The payload of id 7 and its durable anti-node in the parts of two threads. -/
theorem deletions_honoured_two :
    ∃ out, recover false id id
        [[⟨0,.epoch,0,0,0,0,9,false⟩,⟨1,.desc,0,0,1,5,0,true⟩,⟨2,.alloc,3,7,1,1,0,false⟩],
          [⟨3,.delete,4,7,1,2,0,false⟩]]
        [[⟨2,.alloc,3,7,1,1,0,false⟩],[⟨0,.epoch,0,0,0,0,9,false⟩,⟨1,.desc,0,0,1,5,0,true⟩,
          ⟨3,.delete,4,7,1,2,0,false⟩]] = .ok out ∧
      Lost out ⟨2,.alloc,3,7,1,1,0,false⟩ := by
  refine exists_ok rfl fun hrec => ?_
  have hi : Image [⟨0,.epoch,0,0,0,0,9,false⟩,⟨1,.desc,0,0,1,5,0,true⟩,
      ⟨2,.alloc,3,7,1,1,0,false⟩,⟨3,.delete,4,7,1,2,0,false⟩] := by
    constructor <;> decide
  have hiff := deletions_honoured_iff hi (fun l => .refl l) (fun r => le_refl r) (.refl _) hrec
  refine (hiff.mpr ?_ _ (by decide)).mpr (by decide)
  intro b hb _
  obtain ⟨hmem,hpayload,-⟩ := hb
  simp only [mem_cons,not_mem_nil,or_false] at hmem
  rcases hmem with rfl | rfl | rfl | rfl
  · exact absurd hpayload (by decide)
  · exact absurd hpayload (by decide)
  · decide
  · exact absurd hpayload (by decide)

/-- An uncommitted attempt of thread 1 to retire the payload of id 7 left an anti-node in
epoch 9. It takes the id out of the set again, and the durable deletion of epoch 4 is
forgotten. -/
theorem deletion_forgotten :
    ∃ out, recover false id id
        [[⟨0,.epoch,0,0,0,0,9,false⟩,⟨1,.desc,0,0,1,5,0,false⟩,⟨2,.alloc,3,7,1,1,0,false⟩,
          ⟨3,.delete,4,7,1,2,0,false⟩,⟨4,.delete,9,7,1,5,0,false⟩]]
        [[⟨0,.epoch,0,0,0,0,9,false⟩,⟨1,.desc,0,0,1,5,0,false⟩,⟨2,.alloc,3,7,1,1,0,false⟩,
          ⟨3,.delete,4,7,1,2,0,false⟩,⟨4,.delete,9,7,1,5,0,false⟩]] = .ok out ∧
      Mature [⟨0,.epoch,0,0,0,0,9,false⟩,⟨1,.desc,0,0,1,5,0,false⟩,⟨2,.alloc,3,7,1,1,0,false⟩,
        ⟨3,.delete,4,7,1,2,0,false⟩,⟨4,.delete,9,7,1,5,0,false⟩] ⟨2,.alloc,3,7,1,1,0,false⟩ ∧
      Deleted [⟨0,.epoch,0,0,0,0,9,false⟩,⟨1,.desc,0,0,1,5,0,false⟩,⟨2,.alloc,3,7,1,1,0,false⟩,
        ⟨3,.delete,4,7,1,2,0,false⟩,⟨4,.delete,9,7,1,5,0,false⟩] 7 ∧
      out.inUse.find? Block.id 7 = some ⟨2,.alloc,3,7,1,1,0,false⟩ := by
  refine ⟨_,rfl,by decide,by decide,rfl⟩

end Montage.Recover.Nonblocking
