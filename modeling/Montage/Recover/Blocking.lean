import Montage.Library.Folds
import Montage.Recover.Image

namespace Montage.Recover.Blocking
open Library
open List hiding iter

/-- The first pass of `EpochSys::recover`. -/
def firstStep (clean : Bool) (l : Scan) (b : Block) : Except Fault Scan :=
  if b.blktype = .delete ∧ clean then .error (.errexit "delete node appears after a clean exit.")
  else .ok (l.note b)

def firstPass (clean : Bool) (part : List Block) : Except Fault Scan :=
  part.foldlM (firstStep clean) ⟨0,[],∅,false⟩

/-- Anti-nodes of the last two epochs take their ids back out of the thread's set. -/
def removePremature (maxEpoch : Nat) (l : Scan) : Finset Nat :=
  [maxEpoch,sub64 maxEpoch 1].foldl (fun ids e =>
    (l.antiNodesLocal.filter fun n => n.epoch = e).foldl (fun ids n => ids.erase n.id) ids)
    l.deletedIdsLocal

def secondStep (clean : Bool) (deletedIds : Finset Nat) (epochCap : Nat) (s : Kept Block)
    (b : Block) : Except Fault (Kept Block) :=
  if b.discardable && (b.epoch = nullEpoch || b.epoch > epochCap || b.id ∈ deletedIds) then
    .ok (s.pass b)
  else settle clean true s b

def secondPass (clean : Bool) (deletedIds : Finset Nat) (epochCap : Nat) (part : List Block) :
    Except Fault (Kept Block) :=
  part.foldlM (secondStep clean deletedIds epochCap) ⟨[],[]⟩

structure Recovered where
  inUse : Kept Block
  freed : List Block
  globalEpoch : Nat

def mergedIds (maxEpoch : Nat) (locals : List Scan) : Finset Nat :=
  locals.foldl (fun ids l => ids ∪ removePremature maxEpoch l) ∅

/-- `EpochSys::recover`. The allocator hands out the blocks twice, to one iterator per
recovery thread. -/
def recover (clean : Bool) (iter : List Block → List Block) (parts₁ parts₂ : List (List Block)) :
    Except Fault Recovered := do
  let locals ← parts₁.mapM (firstPass clean)
  if locals.any Scan.container then
    let maxEpoch := locals.foldl (fun m l => max m l.maxEpochLocal) 0
    let deletedIds := mergedIds maxEpoch locals
    let passes ← parts₂.mapM (secondPass clean deletedIds (sub64 maxEpoch 2))
    let inUse := passes.foldl (merge iter) ⟨[],[]⟩
    let antiNodes := locals.flatMap Scan.antiNodesLocal
    return ⟨inUse,(inUse.passed ++ antiNodes).map Block.reset,maxEpoch⟩
  else .error (.errexit "epoch container not found during recovery")

theorem first_pass_of (part : List Block) :
    ∃ l, firstPass false part = .ok l ∧ l.Of part :=
  foldlM_total (firstStep false) (fun seen l => l.Of seen) part [] ⟨0,[],∅,false⟩
    empty_of fun _ _ b _ h => ⟨_,by simp [firstStep],h.note b⟩

theorem mem_remove_premature :
    i ∈ removePremature m l ↔ i ∈ l.deletedIdsLocal ∧
      ∀ n ∈ l.antiNodesLocal, n.epoch = m ∨ n.epoch = sub64 m 1 → n.id ≠ i := by
  simp only [removePremature,foldl_cons,foldl_nil,mem_foldl_erase,mem_filter,
    decide_eq_true_eq]
  constructor
  · intro h
    refine ⟨h.1.1,?_⟩
    intro n hn he
    rcases he with he | he
    · exact h.1.2 n ⟨hn,he⟩
    · exact h.2 n ⟨hn,he⟩
  · intro h
    exact ⟨⟨h.1,fun n hn => h.2 n hn.1 (.inl hn.2)⟩,fun n hn => h.2 n hn.1 (.inr hn.2)⟩

theorem mem_merged_ids (locals : List Scan) :
    i ∈ mergedIds m locals ↔ ∃ l ∈ locals, i ∈ removePremature m l := by
  have hfold : ∀ ids : Finset Nat,
      i ∈ locals.foldl (fun ids l => ids ∪ removePremature m l) ids ↔
        i ∈ ids ∨ ∃ l ∈ locals, i ∈ removePremature m l := by
    induction locals with
    | nil => simp
    | cons _ _ ih =>
      intro ids
      rw [foldl_cons,ih,Finset.mem_union]
      simp [or_assoc]
  simpa [mergedIds] using hfold ∅

/-- The versions among which recovery chooses. -/
def live (deletedIds : Finset Nat) (epochCap : Nat) (b : Block) : Bool :=
  b.isPayload && b.epoch ≠ nullEpoch && b.epoch ≤ epochCap && b.id ∉ deletedIds

def dropped (deletedIds : Finset Nat) (epochCap : Nat) (b : Block) : Bool :=
  b.blktype ≠ .epoch && b.blktype ≠ .delete && !live deletedIds epochCap b

variable {deletedIds : Finset Nat} {epochCap : Nat} {b : Block}

theorem live_iff : live deletedIds epochCap b = true ↔
    (b.blktype = .alloc ∨ b.blktype = .update) ∧ b.epoch ≠ nullEpoch ∧ b.epoch ≤ epochCap ∧
      b.id ∉ deletedIds := by
  simp [live,Block.isPayload,and_assoc]

theorem dropped_iff : dropped deletedIds epochCap b = true ↔
    b.blktype ≠ .epoch ∧ b.blktype ≠ .delete ∧ live deletedIds epochCap b = false := by
  simp [dropped,and_assoc]

theorem second_step_live (s : Kept Block) (hlive : live deletedIds epochCap b = true) :
    secondStep false deletedIds epochCap s b = .ok
      (if b.blktype = .alloc then keepFirst Block.id s b
        else keepNewest Block.id Block.epoch s b) := by
  obtain ⟨hp,he,hcap,hid⟩ := live_iff.mp hlive
  have hkeep : ¬ (b.discardable && (b.epoch = nullEpoch || b.epoch > epochCap ||
      b.id ∈ deletedIds)) = true := by
    simp [he,hcap,hid]
  rw [secondStep,if_neg hkeep]
  rcases hp with hp | hp
  · simp [settle,hp]
  · simp [settle,hp]

theorem second_step_dropped (s : Kept Block) (hdrop : dropped deletedIds epochCap b = true)
    (howned : b.blktype ≠ .owned)
    (hw : b.blktype = .init ∨ b.blktype = .reclaimed →
      b.epoch = nullEpoch ∨ epochCap < b.epoch ∨ b.id ∈ deletedIds) :
    secondStep false deletedIds epochCap s b = .ok (s.pass b) := by
  obtain ⟨hepoch,hdelete,hlive⟩ := dropped_iff.mp hdrop
  by_cases hdesc : b.blktype = .desc
  · simp [secondStep,Block.discardable,settle,hdesc]
  · have hout : b.epoch = nullEpoch ∨ epochCap < b.epoch ∨ b.id ∈ deletedIds := by
      cases hτ : b.blktype with
      | init | reclaimed => exact hw (by simp [hτ])
      | alloc | update =>
        have hfalse : ¬ live deletedIds epochCap b = true := by simp [hlive]
        have hnot := mt live_iff.mpr hfalse
        simp only [hτ,true_or,or_true,true_and,not_and_or,not_not,not_le] at hnot
        exact hnot
      | delete | epoch | owned | desc => simp_all
    have hcond : (b.discardable && (b.epoch = nullEpoch || b.epoch > epochCap ||
        b.id ∈ deletedIds)) = true := by
      simp only [Block.discardable,hepoch,hdesc,hdelete,ne_eq,not_false_eq_true,decide_true,
        Bool.and_self,Bool.true_and,Bool.or_eq_true,decide_eq_true_eq]
      exact or_assoc.mpr hout
    rw [secondStep,if_pos hcond]

theorem second_step_skipped (s : Kept Block) (hb : b.blktype = .epoch ∨ b.blktype = .delete) :
    secondStep false deletedIds epochCap s b = .ok s := by
  rcases hb with hb | hb <;> simp [secondStep,Block.discardable,settle,hb]

theorem second_step_total (s : Kept Block) (howned : b.blktype ≠ .owned)
    (hw : b.blktype = .init ∨ b.blktype = .reclaimed →
      b.epoch = nullEpoch ∨ epochCap < b.epoch ∨ b.id ∈ deletedIds) :
    live deletedIds epochCap b = true ∧ secondStep false deletedIds epochCap s b = .ok
      (if b.blktype = .alloc then keepFirst Block.id s b
        else keepNewest Block.id Block.epoch s b) ∨
    dropped deletedIds epochCap b = true ∧
      secondStep false deletedIds epochCap s b = .ok (s.pass b) ∨
    live deletedIds epochCap b = false ∧ dropped deletedIds epochCap b = false ∧
      secondStep false deletedIds epochCap s b = .ok s := by
  by_cases hlive : live deletedIds epochCap b = true
  · exact .inl ⟨hlive,second_step_live s hlive⟩
  · by_cases hdrop : dropped deletedIds epochCap b = true
    · exact .inr (.inl ⟨hdrop,second_step_dropped s hdrop howned hw⟩)
    · have hskip : b.blktype = .epoch ∨ b.blktype = .delete := by
        by_contra hcon
        rw [not_or] at hcon
        exact hdrop (dropped_iff.mpr ⟨hcon.1,hcon.2,by simpa using hlive⟩)
      exact .inr (.inr ⟨by simpa using hlive,by simpa using hdrop,second_step_skipped s hskip⟩)

/-- The images on which the second pass comes through: no block of a type that it does
not expect, and an `ALLOC` block is the oldest version of its id. -/
structure Readable (deletedIds : Finset Nat) (epochCap : Nat) (blocks : List Block) : Prop where
  owned : ∀ b ∈ blocks, b.blktype ≠ .owned
  unused : ∀ b ∈ blocks, b.blktype = .init ∨ b.blktype = .reclaimed →
    b.epoch = nullEpoch ∨ epochCap < b.epoch ∨ b.id ∈ deletedIds
  oldest : ∀ b ∈ blocks, b.blktype = .alloc → b.epoch ≠ nullEpoch →
    ∀ y ∈ blocks, y.isPayload → y.epoch ≠ nullEpoch → y.id = b.id → b.epoch ≤ y.epoch

theorem second_pass_newest (hr : Readable deletedIds epochCap blocks) (part : List Block)
    (hpart : part ⊆ blocks) :
    ∃ s, secondPass false deletedIds epochCap part = .ok s ∧
      Newest Block.id Block.epoch s (part.filter (live deletedIds epochCap))
        (part.filter (dropped deletedIds epochCap)) := by
  have htotal := foldlM_total (secondStep false deletedIds epochCap)
    (fun seen s => seen ⊆ blocks ∧ Newest Block.id Block.epoch s
      (seen.filter (live deletedIds epochCap)) (seen.filter (dropped deletedIds epochCap)))
    part [] ⟨[],[]⟩ ⟨by simp,nil_newest⟩
  obtain ⟨s,hs,-,hnewest⟩ := htotal (by
    intro seen s b hb h
    obtain ⟨hseen,h⟩ := h
    have hbs : b ∈ blocks := hpart hb
    have hsub : seen ++ [b] ⊆ blocks := by simp [hseen,hbs]
    simp only [filter_append]
    rcases second_step_total s (hr.owned b hbs) (hr.unused b hbs) with
      ⟨hlive,hstep⟩ | ⟨hdrop,hstep⟩ | ⟨hlive,hdrop,hstep⟩
    · have hdrop : ¬ dropped deletedIds epochCap b = true := by simp [dropped,hlive]
      refine ⟨_,hstep,hsub,?_⟩
      rw [filter_cons_of_pos hlive,filter_cons_of_neg hdrop,filter_nil,filter_nil,append_nil]
      split
      next halloc =>
        apply keep_first_newest h
        intro y hy hk
        obtain ⟨hys,hyl⟩ := mem_filter.mp hy
        obtain ⟨hyp,hye,-,-⟩ := live_iff.mp hyl
        exact hr.oldest b hbs halloc (live_iff.mp hlive).2.1 y (hseen hys)
          (by simpa [Block.isPayload] using hyp) hye hk
      next => exact keep_newest_newest h b
    · have hlive := (dropped_iff.mp hdrop).2.2
      refine ⟨_,hstep,hsub,?_⟩
      rw [filter_cons_of_neg (by simp [hlive]),filter_cons_of_pos hdrop,filter_nil,append_nil]
      exact h.drop b
    · refine ⟨s,hstep,hsub,?_⟩
      rw [filter_cons_of_neg (by simp [hlive]),filter_cons_of_neg (by simp [hdrop])]
      simpa using h)
  exact ⟨s,hs,by simpa using hnewest⟩

theorem merge_newest (p q : Block → Bool) (hiter : ∀ l, (iter l).Perm l)
    (hpasses : Forall₂ (fun part s =>
      Newest Block.id Block.epoch s (part.filter p) (part.filter q)) parts passes)
    {s : Kept Block} (h : Newest Block.id Block.epoch s seen rest) :
    Newest Block.id Block.epoch (passes.foldl (merge iter) s)
      (seen ++ parts.flatten.filter p) (rest ++ parts.flatten.filter q) := by
  induction hpasses generalizing s seen rest with
  | nil => simpa using h
  | cons hl _ ih => simpa [merge] using ih (h.merge hl (hiter _))

variable {locals : List Scan} {parts : List (List Block)}

/-- An id is deleted when some thread met an anti-node of it, and none of the last two
epochs. -/
theorem locals_deleted (h : Forall₂ (fun part l => l.Of part) parts locals) :
    i ∈ mergedIds m locals ↔ ∃ part ∈ parts,
      (∃ d ∈ part, d.blktype = .delete ∧ d.epoch ≠ nullEpoch ∧ d.id = i) ∧
      ∀ n ∈ part, n.blktype = .delete → n.epoch = m ∨ n.epoch = sub64 m 1 → n.id ≠ i := by
  rw [mem_merged_ids]
  induction h with
  | nil => simp
  | cons hl _ ih =>
    simp only [mem_cons,exists_eq_or_imp]
    rw [ih,mem_remove_premature,hl.deleted,hl.antiNodes]
    simp only [mem_filter,decide_eq_true_eq,and_imp]

/-- The deletion of an id is durable: its anti-node is at least two epochs old. -/
def Deleted (blocks : List Block) (i : Nat) : Prop :=
  ∃ d ∈ blocks, d.blktype = .delete ∧ d.epoch ≠ nullEpoch ∧ d.epoch ≤ maxEpoch blocks - 2 ∧
    d.id = i

instance (blocks : List Block) (i : Nat) : Decidable (Deleted blocks i) :=
  inferInstanceAs (Decidable (∃ d ∈ blocks, d.blktype = .delete ∧ d.epoch ≠ nullEpoch ∧
    d.epoch ≤ maxEpoch blocks - 2 ∧ d.id = i))

/-- A version of a payload that is at least two epochs old. -/
def Mature (blocks : List Block) (b : Block) : Prop :=
  b ∈ blocks ∧ b.isPayload ∧ b.epoch ≠ nullEpoch ∧ b.epoch ≤ maxEpoch blocks - 2

/-- The newest mature version of an id that has not been deleted. -/
def Chosen (blocks : List Block) (b : Block) : Prop :=
  Mature blocks b ∧ (∀ y, Mature blocks y → y.id = b.id → y.epoch ≤ b.epoch) ∧
    ¬ Deleted blocks b.id

/-- A heap image with one epoch container, at most one anti-node per id, versions of
different epochs, of which an `ALLOC` block is the oldest, and no `OWNED` block. Blocks
whose epoch has been reset do not count. -/
structure Image (blocks : List Block) : Prop where
  addrs : (blocks.map Block.addr).Nodup
  container : (blocks.filter fun b => b.blktype = .epoch).length = 1
  antiNodes : ∀ d ∈ blocks, ∀ d' ∈ blocks, d.blktype = .delete → d'.blktype = .delete →
    d.epoch ≠ nullEpoch → d'.epoch ≠ nullEpoch → d.id = d'.id → d = d'
  versions : ∀ b ∈ blocks, ∀ b' ∈ blocks, b.isPayload → b'.isPayload →
    b.epoch ≠ nullEpoch → b'.epoch ≠ nullEpoch → b.id = b'.id → b.epoch = b'.epoch → b = b'
  oldest : ∀ b ∈ blocks, b.blktype = .alloc → b.epoch ≠ nullEpoch →
    ∀ y ∈ blocks, y.isPayload → y.epoch ≠ nullEpoch → y.id = b.id → b.epoch ≤ y.epoch
  owned : ∀ b ∈ blocks, b.blktype ≠ .owned
  started : 3 ≤ maxEpoch blocks
  uint64 : maxEpoch blocks ≤ uint64Max

/-- What recovery is for: an id is mapped to its newest mature version, all other blocks
but the epoch container are reset and given back, and the epoch goes on from the largest
one. -/
structure Restores (blocks : List Block) (out : Recovered) : Prop where
  inUse : ∀ i b, out.inUse.find? Block.id i = some b ↔ Chosen blocks b ∧ b.id = i
  freed : out.freed.Perm
    ((blocks.filter fun b => b.blktype ≠ .epoch ∧ b ∉ out.inUse.kept).map Block.reset)
  globalEpoch : out.globalEpoch = maxEpoch blocks

variable {blocks : List Block} {parts₁ parts₂ : List (List Block)}
  {iter : List Block → List Block}

theorem epoch_cap (h3 : 3 ≤ m) (h64 : m ≤ uint64Max) : sub64 m 2 = m - 2 ∧ sub64 m 1 = m - 1 := by
  simp only [uint64Max] at h64
  exact ⟨sub64_of_le (by omega) (by omega),sub64_of_le (by omega) (by omega)⟩

theorem Image.cap (hi : Image blocks) :
    sub64 (maxEpoch blocks) 2 = maxEpoch blocks - 2 ∧
      sub64 (maxEpoch blocks) 1 = maxEpoch blocks - 1 :=
  epoch_cap hi.started hi.uint64

/-- With one anti-node per id, removing the premature ones removes nothing else. -/
theorem merged_ids_deleted (hi : Image blocks)
    (h : Forall₂ (fun part l => l.Of part) parts locals)
    (hp : parts.flatten.Perm blocks) :
    i ∈ mergedIds (maxEpoch blocks) locals ↔ Deleted blocks i := by
  have h3 := hi.started
  have hmem : ∀ part ∈ parts, ∀ b ∈ part, b ∈ blocks := fun part hpart b hb =>
    hp.subset (mem_flatten.mpr ⟨part,hpart,hb⟩)
  rw [locals_deleted h,hi.cap.2]
  constructor
  · intro hl
    obtain ⟨part,hpart,⟨d,hd,hdel,hnull,hid⟩,hlate⟩ := hl
    refine ⟨d,hmem part hpart d hd,hdel,hnull,?_,hid⟩
    have hmax := epoch_le_max (hmem part hpart d hd)
    have hnot := mt (hlate d hd hdel) (by simp [hid])
    omega
  · intro hd
    obtain ⟨d,hd,hdel,hnull,hcap,hid⟩ := hd
    obtain ⟨part,hpart,hdp⟩ := mem_flatten.mp (hp.symm.subset hd)
    refine ⟨part,hpart,⟨d,hdp,hdel,hnull,hid⟩,?_⟩
    intro n hn hndel hlate heq
    have hnull' : n.epoch ≠ nullEpoch := by
      simp only [nullEpoch]
      omega
    have hnd := hi.antiNodes n (hmem part hpart n hn) d hd hndel hdel hnull' hnull
      (heq.trans hid.symm)
    rw [hnd] at hlate
    omega

theorem perm_filter_not_mem {bs kept others : List Block} (hnodup : bs.Nodup)
    (h : (kept ++ others).Perm bs) :
    others.Perm (bs.filter fun b : Block => b ∉ kept) := by
  have hdisjoint := disjoint_of_nodup_append (h.nodup_iff.mpr hnodup)
  have hfilter := h.filter fun b : Block => b ∉ kept
  rw [filter_append,filter_eq_nil_iff.mpr (by simp),nil_append] at hfilter
  rw [filter_eq_self.mpr] at hfilter
  · exact hfilter
  · intro b hb
    simpa using fun hk => hdisjoint hk hb

theorem filter_blocks_perm (bs : List Block) :
    (bs.filter (live deletedIds epochCap) ++ bs.filter (dropped deletedIds epochCap) ++
      bs.filter fun b => b.blktype = .delete).Perm (bs.filter fun b => b.blktype ≠ .epoch) := by
  induction bs with
  | nil => simp
  | cons b _ ih =>
    by_cases hlive : live deletedIds epochCap b = true
    · have htype := (live_iff.mp hlive).1
      have hepoch : b.blktype ≠ .epoch := by rcases htype with h | h <;> simp [h]
      have hdelete : b.blktype ≠ .delete := by rcases htype with h | h <;> simp [h]
      simpa [filter_cons,hlive,dropped,hepoch,hdelete] using ih
    · rw [filter_cons_of_neg hlive]
      by_cases hdelete : b.blktype = .delete
      · have hdrop : ¬ dropped deletedIds epochCap b = true := by simp [dropped,hdelete]
        rw [filter_cons_of_neg hdrop,filter_cons_of_pos (by simp [hdelete]),
          filter_cons_of_pos (by simp [hdelete])]
        exact perm_middle.trans (ih.cons b)
      · rw [filter_cons_of_neg (p := fun b : Block => b.blktype = .delete) (by simp [hdelete])]
        by_cases hepoch : b.blktype = .epoch
        · have hdrop : ¬ dropped deletedIds epochCap b = true := by simp [dropped,hepoch]
          rw [filter_cons_of_neg hdrop,filter_cons_of_neg (by simp [hepoch])]
          exact ih
        · have hdrop : dropped deletedIds epochCap b = true := by
            simpa [dropped,hepoch,hdelete] using hlive
          rw [filter_cons_of_pos hdrop,filter_cons_of_pos (by simp [hepoch])]
          rw [append_assoc,cons_append]
          rw [append_assoc] at ih
          exact perm_middle.trans (ih.cons b)

theorem live_iff_mature (hdeleted : ∀ i, i ∈ deletedIds ↔ Deleted blocks i) :
    b ∈ blocks.filter (live deletedIds (maxEpoch blocks - 2)) ↔
      Mature blocks b ∧ ¬ Deleted blocks b.id := by
  rw [mem_filter,live_iff,hdeleted]
  simp only [Mature,Block.isPayload,Bool.or_eq_true,decide_eq_true_eq]
  tauto

theorem find_iff_chosen (hi : Image blocks) (hdeleted : ∀ i, i ∈ deletedIds ↔ Deleted blocks i)
    {s : Kept Block} (h : Newest Block.id Block.epoch s
      (blocks.filter (live deletedIds (maxEpoch blocks - 2))) rest) (i : Nat) (b : Block) :
    s.find? Block.id i = some b ↔ Chosen blocks b ∧ b.id = i := by
  rw [Kept.find?_iff h.unique,h.mem_iff,live_iff_mature hdeleted]
  · constructor
    · intro hb
      obtain ⟨⟨⟨hm,hd⟩,hnew⟩,hid⟩ := hb
      refine ⟨⟨hm,?_,hd⟩,hid⟩
      intro y hy hk
      exact hnew y ((live_iff_mature hdeleted).mpr ⟨hy,hk ▸ hd⟩) hk
    · intro hb
      obtain ⟨⟨hm,hnew,hd⟩,hid⟩ := hb
      exact ⟨⟨⟨hm,hd⟩,fun y hy => hnew y ((live_iff_mature hdeleted).mp hy).1⟩,hid⟩
  · intro x hx y hy
    obtain ⟨⟨hxb,hxp,hxe,-⟩,-⟩ := (live_iff_mature hdeleted).mp hx
    obtain ⟨⟨hyb,hyp,hye,-⟩,-⟩ := (live_iff_mature hdeleted).mp hy
    exact hi.versions x hxb y hyb hxp hyp hxe hye

theorem passed_perm (hi : Image blocks) {s : Kept Block}
    (h : Newest Block.id Block.epoch s (blocks.filter (live deletedIds epochCap))
      (blocks.filter (dropped deletedIds epochCap)))
    (hanti : antiNodes.Perm (blocks.filter fun b => b.blktype = .delete)) :
    (s.passed ++ antiNodes).Perm
      (blocks.filter fun b => b.blktype ≠ .epoch ∧ b ∉ s.kept) := by
  have hall := (h.perm.append hanti).trans (filter_blocks_perm blocks)
  rw [append_assoc] at hall
  have hnodup : (blocks.filter fun b => b.blktype ≠ .epoch).Nodup :=
    (Nodup.of_map _ hi.addrs).filter _
  have hrest := perm_filter_not_mem hnodup hall
  rw [filter_filter] at hrest
  refine hrest.trans (List.Perm.of_eq ?_)
  congr 1
  funext b
  simp [Bool.and_comm]

/-- Recovery comes through when its second pass does, whatever the threads found in the
first one. -/
theorem recover_total (hc : ∃ b ∈ blocks, b.blktype = .epoch)
    (h1 : parts₁.flatten.Perm blocks) (P : Finset Nat → List Block → Kept Block → Prop)
    (hsecond : ∀ locals, Forall₂ (fun part l => l.Of part) parts₁ locals →
      ∀ part ∈ parts₂, ∃ s, secondPass false (mergedIds (maxEpoch blocks) locals)
        (sub64 (maxEpoch blocks) 2) part = .ok s ∧ P (mergedIds (maxEpoch blocks) locals) part s) :
    ∃ locals passes, Forall₂ (fun part l => l.Of part) parts₁ locals ∧
      Forall₂ (P (mergedIds (maxEpoch blocks) locals)) parts₂ passes ∧
      recover false iter parts₁ parts₂ = .ok ⟨passes.foldl (merge iter) ⟨[],[]⟩,
        ((passes.foldl (merge iter) ⟨[],[]⟩).passed ++
          locals.flatMap Scan.antiNodesLocal).map Block.reset,maxEpoch blocks⟩ := by
  obtain ⟨locals,hlocals,hof⟩ := mapM_total (firstPass false) (fun part l => l.Of part)
    parts₁ fun part _ => first_pass_of part
  have hmax : locals.foldl (fun m l => max m l.maxEpochLocal) 0 = maxEpoch blocks := by
    rw [locals_max hof,max_epoch_perm h1]
  have hcontainer : locals.any Scan.container = true := by
    apply locals_container hof
    obtain ⟨b,hb,hepoch⟩ := hc
    exact ⟨b,h1.symm.subset hb,hepoch⟩
  obtain ⟨passes,hpasses,hP⟩ := mapM_total _ _ parts₂ (hsecond locals hof)
  refine ⟨locals,passes,hof,hP,?_⟩
  simp only [recover,hlocals,bind,Except.bind,hcontainer,if_true,hmax,hpasses]
  rfl

/-- The map that the threads merge has the newest live version of each id. -/
theorem recover_newest (hi : Image blocks)
    (hunused : ∀ b ∈ blocks, b.blktype = .init ∨ b.blktype = .reclaimed →
      b.epoch = nullEpoch ∨ maxEpoch blocks - 2 < b.epoch ∨ Deleted blocks b.id)
    (hiter : ∀ l, (iter l).Perm l) (h1 : parts₁.flatten.Perm blocks)
    (h2 : parts₂.flatten.Perm blocks) :
    ∃ ids s antiNodes, recover false iter parts₁ parts₂ =
        .ok ⟨s,(s.passed ++ antiNodes).map Block.reset,maxEpoch blocks⟩ ∧
      (∀ i, i ∈ ids ↔ Deleted blocks i) ∧
      antiNodes.Perm (blocks.filter fun b => b.blktype = .delete) ∧
      Newest Block.id Block.epoch s (blocks.filter (live ids (maxEpoch blocks - 2)))
        (blocks.filter (dropped ids (maxEpoch blocks - 2))) := by
  have hcontainer : ∃ b ∈ blocks, b.blktype = .epoch := by
    obtain ⟨b,hb⟩ := length_eq_one_iff.mp hi.container
    obtain ⟨hmem,hepoch⟩ := mem_filter.mp (hb ▸ mem_singleton_self b)
    exact ⟨b,hmem,by simpa using hepoch⟩
  obtain ⟨locals,passes,hof,hnewest,hrecover⟩ := recover_total hcontainer h1
    (fun ids part s => Newest Block.id Block.epoch s (part.filter (live ids (maxEpoch blocks - 2)))
      (part.filter (dropped ids (maxEpoch blocks - 2)))) (by
    intro locals hof part hpart
    rw [hi.cap.1]
    have hreadable : Readable (mergedIds (maxEpoch blocks) locals) (maxEpoch blocks - 2)
        blocks := by
      refine ⟨hi.owned,?_,hi.oldest⟩
      intro b hb htype
      rw [merged_ids_deleted hi hof h1]
      exact hunused b hb htype
    exact second_pass_newest hreadable part fun b hb =>
      h2.subset (mem_flatten.mpr ⟨part,hpart,hb⟩))
  refine ⟨_,_,_,hrecover,fun i => merged_ids_deleted hi hof h1,?_,?_⟩
  · rw [locals_anti hof]
    exact h1.filter _
  · exact (merge_newest _ _ hiter hnewest nil_newest).reorder (h2.filter _) (h2.filter _)

/-- Whatever the number of recovery threads, the split of the blocks among them and the
order of iteration, recovery restores an image whose unused blocks are not mature. -/
theorem recover_restores (hi : Image blocks)
    (hunused : ∀ b ∈ blocks, b.blktype = .init ∨ b.blktype = .reclaimed →
      b.epoch = nullEpoch ∨ maxEpoch blocks - 2 < b.epoch ∨ Deleted blocks b.id)
    (hiter : ∀ l, (iter l).Perm l) (h₁ : parts₁.flatten.Perm blocks)
    (h₂ : parts₂.flatten.Perm blocks) :
    ∃ out, recover false iter parts₁ parts₂ = .ok out ∧ Restores blocks out := by
  obtain ⟨_,_,_,hrecover,hdeleted,hanti,hfinal⟩ := recover_newest hi hunused hiter h₁ h₂
  exact ⟨_,hrecover,find_iff_chosen hi hdeleted hfinal,
    (passed_perm hi hfinal hanti).map Block.reset,rfl⟩

/-- Two recovery threads, each of which sees the blocks in its own order, agree on the
newest version of id 7 and on the deletion of id 8. -/
theorem recover_restores_two :
    ∃ out, recover false id
        [[⟨0,.epoch,0,0,0,0,9,false⟩,⟨1,.update,5,7,0,0,0,false⟩],
          [⟨2,.alloc,4,7,0,0,0,false⟩,⟨3,.delete,6,8,0,0,0,false⟩,⟨4,.alloc,3,8,0,0,0,false⟩]]
        [[⟨4,.alloc,3,8,0,0,0,false⟩,⟨2,.alloc,4,7,0,0,0,false⟩,⟨1,.update,5,7,0,0,0,false⟩],
          [⟨3,.delete,6,8,0,0,0,false⟩,⟨0,.epoch,0,0,0,0,9,false⟩]] = .ok out ∧
      Restores
        [⟨0,.epoch,0,0,0,0,9,false⟩,⟨1,.update,5,7,0,0,0,false⟩,⟨2,.alloc,4,7,0,0,0,false⟩,
          ⟨3,.delete,6,8,0,0,0,false⟩,⟨4,.alloc,3,8,0,0,0,false⟩] out := by
  apply recover_restores
  · constructor <;> decide
  · decide
  · exact fun l => .refl l
  · decide
  · decide

/-- An image that meets every condition but has a mature block of type `INIT`: recovery
gives up. -/
theorem recover_wrong_type :
    Image [⟨0,.epoch,0,0,0,0,5,false⟩,⟨1,.init,1,7,0,0,0,false⟩] ∧
      recover false id [[⟨0,.epoch,0,0,0,0,5,false⟩,⟨1,.init,1,7,0,0,0,false⟩]]
        [[⟨0,.epoch,0,0,0,0,5,false⟩,⟨1,.init,1,7,0,0,0,false⟩]] =
      .error (.errexit "wrong type of pblk discovered") := by
  refine ⟨?_,rfl⟩
  constructor <;> decide

end Montage.Recover.Blocking
