import Montage.Recover.Blocking
import Montage.Recover.Choice

namespace Montage.Recover.Blocking
open Library List

variable {deletedIds : Finset Nat} {epochCap : Nat} {b : Block} {s s' : Kept Block}
  {clean : Bool} {part blocks : List Block} {parts1 parts2 : List (List Block)}
  {iter : List Block → List Block} {out : Recovered}

def visited (b : Block) : Bool := b.blktype ≠ .epoch && b.blktype ≠ .delete

/-- The blocks that pass the filter of the second pass and reach its `switch`. -/
def candidate (deletedIds : Finset Nat) (epochCap : Nat) (b : Block) : Bool :=
  b.discardable && b.epoch ≠ nullEpoch && b.epoch ≤ epochCap && b.id ∉ deletedIds

theorem candidate_iff : candidate deletedIds epochCap b = true ↔
    b.discardable = true ∧ b.epoch ≠ nullEpoch ∧ b.epoch ≤ epochCap ∧ b.id ∉ deletedIds := by
  simp [candidate,and_assoc]

theorem live_eq : live deletedIds epochCap b =
    (candidate deletedIds epochCap b && b.isPayload) := by
  cases hp : b.isPayload with
  | true => simp [live,candidate,hp,discardable_of_payload hp]
  | false => simp [live,hp]

theorem second_step_filtered (s : Kept Block) (hd : b.discardable = true)
    (hc : candidate deletedIds epochCap b = false) :
    secondStep clean deletedIds epochCap s b = .ok (s.pass b) := by
  have hout : (b.discardable && (b.epoch = nullEpoch || b.epoch > epochCap ||
      b.id ∈ deletedIds)) = true := by
    simp only [candidate,hd,Bool.true_and,Bool.and_eq_false_iff,decide_eq_false_iff_not,
      not_not,not_le] at hc ⊢
    simpa using hc
  rw [secondStep,if_pos hout]

theorem second_step_settles (s : Kept Block)
    (hc : b.discardable = false ∨ candidate deletedIds epochCap b = true) :
    secondStep clean deletedIds epochCap s b = settle clean true s b := by
  have hin : ¬ (b.discardable && (b.epoch = nullEpoch || b.epoch > epochCap ||
      b.id ∈ deletedIds)) = true := by
    rcases hc with hd | hc
    · simp [hd]
    · obtain ⟨-,he,hcap,hid⟩ := candidate_iff.mp hc
      simp [he,hcap,hid]
  rw [secondStep,if_neg hin]

theorem second_step_ok (h : secondStep clean deletedIds epochCap s b = .ok s') :
    live deletedIds epochCap b = true ∧ s' = choose s b ∨
    live deletedIds epochCap b = false ∧ visited b = true ∧ s' = s.pass b ∨
    live deletedIds epochCap b = false ∧ visited b = false ∧ s' = s := by
  by_cases hout : b.discardable = true ∧ candidate deletedIds epochCap b = false
  · rw [second_step_filtered s hout.1 hout.2] at h
    cases h
    have hv : visited b = true := by
      have hd := hout.1
      simp only [Block.discardable,Bool.and_eq_true] at hd
      simp [visited,hd.1.1,hd.2]
    exact .inr (.inl ⟨by simp [live_eq,hout.2],hv,rfl⟩)
  · rw [not_and_or,Bool.not_eq_true,Bool.not_eq_false] at hout
    rw [second_step_settles s hout] at h
    cases hτ : b.blktype with
    | alloc | update =>
      have hp : b.isPayload = true := by simp [Block.isPayload,hτ]
      have hc := hout.resolve_left (by simp [discardable_of_payload hp])
      exact .inl ⟨by simp [live_eq,hc,hp],settle_choose h hp⟩
    | delete | epoch =>
      simp only [settle,hτ] at h
      cases h
      exact .inr (.inr ⟨by simp [live_eq,Block.isPayload,hτ],by simp [visited,hτ],rfl⟩)
    | desc =>
      simp only [settle,hτ] at h
      cases h
      exact .inr (.inl ⟨by simp [live_eq,Block.isPayload,hτ],by simp [visited,hτ],rfl⟩)
    | owned | init | reclaimed =>
      simp only [settle,hτ] at h
      cases h

theorem second_step_chooses :
    Chooses (live deletedIds epochCap) (secondStep clean deletedIds epochCap) := by
  intro s b s' h
  rcases second_step_ok h with h | ⟨hlive,-,rfl⟩ | ⟨hlive,-,rfl⟩
  · exact .inl h
  · exact .inr ⟨hlive,rfl⟩
  · exact .inr ⟨hlive,rfl⟩

theorem second_step_payload (h : secondStep clean deletedIds epochCap s b = .ok s')
    (hc : candidate deletedIds epochCap b = true) : b.isPayload = true := by
  rw [second_step_settles s (.inr hc)] at h
  exact settle_payload h (candidate_iff.mp hc).1

theorem second_step_dirty (s : Kept Block)
    (hc : candidate deletedIds epochCap b = true → b.isPayload = true) :
    ∃ s', secondStep false deletedIds epochCap s b = .ok s' := by
  by_cases hout : b.discardable = true ∧ candidate deletedIds epochCap b = false
  · exact ⟨_,second_step_filtered s hout.1 hout.2⟩
  · rw [not_and_or,Bool.not_eq_true,Bool.not_eq_false] at hout
    rw [second_step_settles s hout]
    exact settle_dirty s fun hd => hc (hout.resolve_left (by simp [hd]))

theorem second_pass_dirty (part : List Block)
    (hc : ∀ b ∈ part, candidate deletedIds epochCap b = true → b.isPayload = true) :
    ∃ s, secondPass false deletedIds epochCap part = .ok s := by
  obtain ⟨s,hs,-⟩ := foldlM_total (secondStep false deletedIds epochCap) (fun _ _ => True) part []
    ⟨[],[]⟩ trivial (by
      intro _ s b hb _
      obtain ⟨s',hs'⟩ := second_step_dirty s (hc b hb)
      exact ⟨s',hs',trivial⟩)
  exact ⟨s,hs⟩

theorem choose_perm (hu : (s.kept.map Block.id).Nodup) :
    ((choose s b).kept ++ (choose s b).passed).Perm (b :: (s.kept ++ s.passed)) := by
  unfold choose
  split
  · exact keep_first_perm
  · exact keep_newest_perm hu

theorem second_pass_perm (h : secondPass clean deletedIds epochCap part = .ok s) :
    (s.kept ++ s.passed).Perm (part.filter visited) := by
  have hfold : ∀ (part : List Block) (s s' : Kept Block) (seen : List Block),
      Keeps Block.id s seen → part.foldlM (secondStep clean deletedIds epochCap) s = .ok s' →
      (s'.kept ++ s'.passed).Perm (part.filter visited ++ (s.kept ++ s.passed)) := by
    intro part
    induction part with
    | nil => intro s s' seen _ h; cases h; exact .refl _
    | cons b _ ih =>
      intro s s' seen hk h
      obtain ⟨_,hb,hrest⟩ := foldlM_cons_ok h
      rcases second_step_ok hb with ⟨hlive,rfl⟩ | ⟨-,hv,rfl⟩ | ⟨-,hv,rfl⟩
      · have hp : b.isPayload = true := by
          rw [live_eq,Bool.and_eq_true] at hlive
          exact hlive.2
        have hv : visited b = true := by
          simp only [Block.isPayload,Bool.or_eq_true,decide_eq_true_eq] at hp
          rcases hp with hp | hp <;> simp [visited,hp]
        rw [filter_cons_of_pos hv]
        exact ((ih _ _ _ (choose_keeps hk b) hrest).trans
          ((choose_perm hk.unique).append_left _)).trans perm_middle
      · rw [filter_cons_of_pos hv]
        have hk' : Keeps Block.id (s.pass b) seen := ⟨hk.subset,hk.unique,hk.covers⟩
        exact ((ih _ _ _ hk' hrest).trans (pass_perm.append_left _)).trans perm_middle
      · rw [filter_cons_of_neg (by simp [hv])]
        exact ih _ _ _ hk hrest
  simpa using hfold part ⟨[],[]⟩ s [] (nil_keeps []) h

theorem first_pass_ok (h : firstPass clean part = .ok l) : l.Of part := by
  have hl : l = part.foldl Scan.note ⟨0,[],∅,false⟩ := by
    refine foldlM_eq_foldl _ _ _ _ _ ?_ h
    intro l b l' hb
    unfold firstStep at hb
    split at hb <;> cases hb
    rfl
  rw [hl]
  clear h hl
  induction part using reverseRecOn with
  | nil => exact empty_of
  | append_singleton _ b ih =>
    rw [foldl_append]
    exact ih.note b

theorem recover_ok (h1 : parts1.flatten.Perm blocks)
    (h : recover clean iter parts1 parts2 = .ok out) :
    ∃ locals passes, Forall₂ (fun part l => l.Of part) parts1 locals ∧
      Forall₂ (fun part s => secondPass clean (mergedIds (maxEpoch blocks) locals)
        (sub64 (maxEpoch blocks) 2) part = .ok s) parts2 passes ∧
      out = ⟨passes.foldl (merge iter) ⟨[],[]⟩,((passes.foldl (merge iter) ⟨[],[]⟩).passed ++
        locals.flatMap Scan.antiNodesLocal).map Block.reset,maxEpoch blocks⟩ := by
  cases hl : parts1.mapM (firstPass clean) with
  | error => simp only [recover,hl,bind,Except.bind] at h; cases h
  | ok locals =>
    have hof : Forall₂ (fun part l => l.Of part) parts1 locals :=
      (mapM_forall₂ _ _ _ hl).imp fun _ _ hpart => first_pass_ok hpart
    have hmax : locals.foldl (fun m l => max m l.maxEpochLocal) 0 = maxEpoch blocks := by
      rw [locals_max hof,max_epoch_perm h1]
    simp only [recover,hl,bind,Except.bind,hmax] at h
    split at h
    next =>
      split at h
      next => cases h
      next passes hpasses =>
        cases h
        exact ⟨locals,passes,hof,mapM_forall₂ _ _ _ hpasses,rfl⟩
    next => cases h

theorem second_pass_payload (h : secondPass clean deletedIds epochCap part = .ok s)
    (hb : b ∈ part) (hc : candidate deletedIds epochCap b = true) : b.isPayload = true := by
  obtain ⟨_,_,hs⟩ := foldlM_step_of_mem h hb
  exact second_step_payload hs hc

/-- What a recovery has done that came through, whatever image it found. `deletedIds` are
the ids it took for deleted. -/
structure Outcome (blocks : List Block) (out : Recovered) (deletedIds : Finset Nat) : Prop where
  anti : ∀ i ∈ deletedIds, ∃ d ∈ blocks, d.blktype = .delete ∧ d.epoch ≠ nullEpoch ∧ d.id = i
  late : ∀ i, (∃ d ∈ blocks, d.blktype = .delete ∧ d.epoch ≠ nullEpoch ∧ d.id = i) →
    (∀ n ∈ blocks, n.blktype = .delete →
      n.epoch = maxEpoch blocks ∨ n.epoch = sub64 (maxEpoch blocks) 1 → n.id ≠ i) →
    i ∈ deletedIds
  payload : ∀ b ∈ blocks, candidate deletedIds (sub64 (maxEpoch blocks) 2) b = true →
    b.isPayload = true
  keeps : Keeps Block.id out.inUse (blocks.filter (live deletedIds (sub64 (maxEpoch blocks) 2)))
  wins : ∀ w ∈ blocks.filter (live deletedIds (sub64 (maxEpoch blocks) 2)),
    Beats w (blocks.filter (live deletedIds (sub64 (maxEpoch blocks) 2))) →
    w ∈ out.inUse.kept
  perm : (out.inUse.kept ++ out.inUse.passed).Perm (blocks.filter visited)
  freed : out.freed.Perm
    ((out.inUse.passed ++ blocks.filter fun b => b.blktype = .delete).map Block.reset)
  globalEpoch : out.globalEpoch = maxEpoch blocks

theorem locals_merged (h1 : parts1.flatten.Perm blocks)
    (hof : Forall₂ (fun part l => l.Of part) parts1 locals) :
    (∀ i ∈ mergedIds (maxEpoch blocks) locals,
      ∃ d ∈ blocks, d.blktype = .delete ∧ d.epoch ≠ nullEpoch ∧ d.id = i) ∧
    ∀ i, (∃ d ∈ blocks, d.blktype = .delete ∧ d.epoch ≠ nullEpoch ∧ d.id = i) →
      (∀ n ∈ blocks, n.blktype = .delete →
        n.epoch = maxEpoch blocks ∨ n.epoch = sub64 (maxEpoch blocks) 1 → n.id ≠ i) →
      i ∈ mergedIds (maxEpoch blocks) locals := by
  have hmem : ∀ part ∈ parts1, ∀ b ∈ part, b ∈ blocks := fun part hpart b hb =>
    h1.subset (mem_flatten.mpr ⟨part,hpart,hb⟩)
  refine ⟨?_,?_⟩
  · intro i hi
    obtain ⟨part,hpart,⟨d,hd,hrest⟩,-⟩ := (locals_deleted hof).mp hi
    exact ⟨d,hmem part hpart d hd,hrest⟩
  · intro i hd hlate
    obtain ⟨d,hd,hrest⟩ := hd
    obtain ⟨part,hpart,hdp⟩ := mem_flatten.mp (h1.symm.subset hd)
    exact (locals_deleted hof).mpr ⟨part,hpart,⟨d,hdp,hrest⟩,
      fun n hn hdel he => hlate n (hmem part hpart n hn) hdel he⟩

section
variable (hiter : ∀ l, (iter l).Perm l)
include hiter

theorem merge_perm (h : Keeps Block.id s seen) (l : Kept Block) :
    ((merge iter s l).kept ++ (merge iter s l).passed).Perm
      ((l.kept ++ l.passed) ++ (s.kept ++ s.passed)) := by
  have hstart : Keeps Block.id ⟨s.kept,s.passed ++ l.passed⟩ seen := ⟨h.subset,h.unique,h.covers⟩
  have hfold : ((merge iter s l).kept ++ (merge iter s l).passed).Perm
      (iter l.kept ++ (s.kept ++ (s.passed ++ l.passed))) :=
    foldl_keep_newest_perm hstart (iter l.kept)
  refine hfold.trans (((hiter _).append_right _).trans ?_)
  rw [append_assoc]
  refine Perm.append_left _ ?_
  rw [← append_assoc]
  exact perm_append_comm

theorem passes_perm
    (hpasses : Forall₂ (fun part s => secondPass clean deletedIds epochCap part = .ok s)
      parts passes) (h : Keeps Block.id s seen) :
    ((passes.foldl (merge iter) s).kept ++ (passes.foldl (merge iter) s).passed).Perm
      (parts.flatten.filter visited ++ (s.kept ++ s.passed)) := by
  induction hpasses generalizing s seen with
  | nil => exact .refl _
  | @cons part l parts passes hl _ ih =>
    have hkeeps : Keeps Block.id (merge iter s l) _ :=
      merge_keeps hiter (.cons (second_step_chooses.keeps hl) .nil) h
    refine (ih hkeeps).trans ?_
    rw [flatten_cons,filter_append]
    refine ((merge_perm hiter h l).append_left _).trans ?_
    rw [← append_assoc (parts.flatten.filter visited)]
    refine List.Perm.append_right _ ?_
    exact (((second_pass_perm hl).append_left _).trans perm_append_comm)

theorem passes_outcome (h1 : parts1.flatten.Perm blocks) (h2 : parts2.flatten.Perm blocks)
    (hof : Forall₂ (fun part l => l.Of part) parts1 locals)
    (hpasses : Forall₂ (fun part s => secondPass clean (mergedIds (maxEpoch blocks) locals)
      (sub64 (maxEpoch blocks) 2) part = .ok s) parts2 passes) :
    Outcome blocks ⟨passes.foldl (merge iter) ⟨[],[]⟩,((passes.foldl (merge iter) ⟨[],[]⟩).passed ++
      locals.flatMap Scan.antiNodesLocal).map Block.reset,maxEpoch blocks⟩
      (mergedIds (maxEpoch blocks) locals) := by
  obtain ⟨hanti,hlate⟩ := locals_merged h1 hof
  obtain ⟨hkeeps,hwins⟩ := second_step_chooses.merged hiter h2 hpasses
  refine ⟨hanti,hlate,?_,hkeeps,hwins,?_,?_,rfl⟩
  · intro b hb hc
    obtain ⟨part,hpart,hbp⟩ := mem_flatten.mp (h2.symm.subset hb)
    obtain ⟨s,-,hs⟩ := exists_of_mem_forall₂ hpasses.flip hpart
    exact second_pass_payload hs hbp hc
  · have hperm := passes_perm hiter hpasses (nil_keeps [])
    rw [append_nil,append_nil] at hperm
    exact hperm.trans (h2.filter _)
  · refine List.Perm.map _ (Perm.append_left _ ?_)
    rw [locals_anti hof]
    exact h1.filter _

theorem recover_outcome (h1 : parts1.flatten.Perm blocks)
    (h2 : parts2.flatten.Perm blocks) (h : recover clean iter parts1 parts2 = .ok out) :
    ∃ deletedIds, Outcome blocks out deletedIds := by
  obtain ⟨locals,passes,hof,hpasses,rfl⟩ := recover_ok h1 h
  exact ⟨_,passes_outcome hiter h1 h2 hof hpasses⟩

theorem recover_single (h1 : l1.Perm blocks)
    (h2 : l2.Perm blocks) (h : recover clean iter [l1] [l2] = .ok out) :
    ∃ deletedIds s, Outcome blocks out deletedIds ∧
      secondPass clean deletedIds (sub64 (maxEpoch blocks) 2) l2 = .ok s ∧
      ∀ y, y ∈ out.inUse.kept ↔ y ∈ s.kept := by
  have hflat1 : [l1].flatten.Perm blocks := by simpa using h1
  have hflat2 : [l2].flatten.Perm blocks := by simpa using h2
  obtain ⟨locals,passes,hof,hpasses,rfl⟩ := recover_ok hflat1 h
  have hout := passes_outcome hiter hflat1 hflat2 hof hpasses
  cases hpasses with
  | cons hs hnil =>
    cases hnil
    exact ⟨_,_,hout,hs,fun y => merge_single hiter (second_step_chooses.keeps hs)⟩

end

theorem recover_dirty (hc : ∃ b ∈ blocks, b.blktype = .epoch) (h1 : parts1.flatten.Perm blocks)
    (h2 : parts2.flatten.Perm blocks)
    (hp : ∀ deletedIds : Finset Nat, (∀ i ∈ deletedIds, ∃ d ∈ blocks, d.blktype = .delete ∧
        d.epoch ≠ nullEpoch ∧ d.id = i) → ∀ b ∈ blocks,
      candidate deletedIds (sub64 (maxEpoch blocks) 2) b = true → b.isPayload = true) :
    ∃ out, recover false iter parts1 parts2 = .ok out := by
  obtain ⟨_,_,-,-,h⟩ := recover_total hc h1 (fun _ _ _ => True) (by
    intro locals hof part hpart
    have hcand : ∀ b ∈ part, candidate (mergedIds (maxEpoch blocks) locals)
        (sub64 (maxEpoch blocks) 2) b = true → b.isPayload = true := fun b hb =>
      hp _ (locals_merged h1 hof).1 b (h2.subset (mem_flatten.mpr ⟨part,hpart,hb⟩))
    obtain ⟨s,hs⟩ := second_pass_dirty part hcand
    exact ⟨s,hs,trivial⟩)
  exact ⟨_,h⟩

end Montage.Recover.Blocking
