import Montage.Mindicator.Concurrent

namespace Montage.Mindicator
open Library List

def Tree.Exact : Tree → Prop
  | .null | .leaf _ _ => True
  | .node v l r => v = min l.val r.val ∧ l.Exact ∧ r.Exact

def Tree.ExactOn (tids : List Nat) : Tree → Prop
  | .null | .leaf _ _ => True
  | .node v l r =>
    ((∃ i ∈ tids, (Tree.node v l r).has i = true) → v = min l.val r.val) ∧
      l.ExactOn tids ∧ r.ExactOn tids

/-- `next_thread_to_persist(val)`, which searches from the root until it finds a thread or the
root has passed `val`. -/
def Tree.nextThreadFromRoot (val : Nat) (t : Tree) : Nat → Option (Option Nat)
  | 0 => none
  | fuel + 1 =>
    if t.val ≤ val then
      match t.findNextThreadLe val with
      | some i => some (some i)
      | none => t.nextThreadFromRoot val fuel
    else some none

/-- The search from the root comes to an end, and finds nothing exactly if there is nothing. -/
def Tree.Answers (t : Tree) : Prop :=
  ∀ val, ∃ fuel found, t.nextThreadFromRoot val fuel = some found ∧
    (found = none ↔ ∀ e ∈ t.entries, val < e.2)

/-- The value of the other child of the parent of `leaves[tid]`. -/
def Tree.siblingVal (tid : Nat) : Tree → Nat
  | .null | .leaf _ _ => nullEpoch
  | .node _ (.leaf i a) (.leaf _ b) => if i = tid then b else a
  | .node _ l r => if l.has tid then l.siblingVal tid else r.siblingVal tid

/-- A call of `after_persist_epoch(val, tid)` that has no effect, or finds the sibling of the leaf
behind both the value that is stored in the leaf and the one that is propagated. -/
def Tree.siblingBehind (val tid : Nat) (t : Tree) : Bool :=
  val < t.leafVal tid || t.siblingVal tid ≤ val && t.siblingVal tid ≤ (val + 1) % 2 ^ 64

theorem Tree.Exact.on {t : Tree} (h : t.Exact) (tids : List Nat) : t.ExactOn tids := by
  induction t with
  | null | leaf => trivial
  | node v l r ihl ihr => exact ⟨fun _ => h.1,ihl h.2.1,ihr h.2.2⟩

theorem Tree.Exact.ordered {t : Tree} (h : t.Exact) : t.Ordered := by
  induction t with
  | null | leaf => trivial
  | node v l r ihl ihr =>
    obtain ⟨hv,hl,hr⟩ := h
    exact ⟨by omega,by omega,ihl hl,ihr hr⟩

theorem Tree.Exact.attained {t : Tree} (h : t.Exact) (hp : Paired t) :
    ∃ e ∈ t.entries, e.2 = t.val := by
  induction hp with
  | @pair v i a j b =>
    obtain ⟨hv,-,-⟩ := h
    simp only [Tree.val] at hv
    rcases le_total a b with hle | hle
    · exact ⟨(i,a),by simp [Tree.entries],by simp only [Tree.val]; omega⟩
    · exact ⟨(j,b),by simp [Tree.entries],by simp only [Tree.val]; omega⟩
  | @node l r v _ _ ihl ihr =>
    obtain ⟨hv,hl,hr⟩ := h
    rcases le_total l.val r.val with hle | hle
    · obtain ⟨e,he,hval⟩ := ihl hl
      exact ⟨e,mem_append_left _ he,by rw [hval,Tree.val]; omega⟩
    · obtain ⟨e,he,hval⟩ := ihr hr
      exact ⟨e,mem_append_right _ he,by rw [hval,Tree.val]; omega⟩

theorem Tree.Exact.answers {t : Tree} (h : t.Exact) (hp : Paired t) : t.Answers := by
  intro val
  obtain ⟨hsome,hnone⟩ := find_next_thread_le_some (x := val) h.ordered
  refine ⟨1,?_⟩
  simp only [Tree.nextThreadFromRoot]
  split
  next =>
    obtain ⟨e,he,hval⟩ := h.attained hp
    cases hfind : t.findNextThreadLe val with
    | none =>
      have hlt := hnone hfind e he
      omega
    | some i =>
      obtain ⟨a,ha,hlow⟩ := hsome i hfind
      refine ⟨some i,rfl,by simp,?_⟩
      intro hall
      have hlt : val < a := hall _ ha
      omega
  next =>
    refine ⟨none,rfl,?_,fun _ => rfl⟩
    intro _ e he
    exact lt_of_lt_of_le (by omega) (h.ordered.le e he)

theorem sibling_val_node (h : Paired l) (tid : Nat) :
    (Tree.node v l r).siblingVal tid =
      if l.has tid then l.siblingVal tid else r.siblingVal tid := by
  cases h <;> rfl

theorem sibling_behind_node (h : Paired l) (val tid : Nat) :
    (Tree.node v l r).siblingBehind val tid =
      if l.has tid then l.siblingBehind val tid else r.siblingBehind val tid := by
  simp only [Tree.siblingBehind,sibling_val_node h,Tree.leafVal]
  split <;> rfl

theorem persist_paired (h : Paired t) (val tid : Nat) :
    Paired (t.afterPersistEpoch val tid).1 := by
  induction h with
  | pair =>
    simp only [Tree.afterPersistEpoch]
    repeat' split
    all_goals exact .pair
  | node hl hr ihl ihr =>
    unfold Tree.afterPersistEpoch
    split
    next => exact .node ihl hr
    next => exact .node hl ihr

theorem propagate_leaf {old : Nat} (hv : v = min old b) (hold : old ≤ val) :
    (propagate (some val) v b).1 = min val b ∧
      Carried v (propagate (some val) v b).1 (propagate (some val) v b).2 := by
  simp only [propagate]
  split
  next hgt => exact ⟨rfl,.inr ⟨rfl,hgt⟩⟩
  next => exact ⟨by simp only; omega,.inl ⟨rfl,rfl⟩⟩

theorem min_stored_iff :
    min val b = min ((val + 1) % 2 ^ 64) b ↔ b ≤ val ∧ b ≤ (val + 1) % 2 ^ 64 := by
  omega

structure Persisted (val tid : Nat) (t : Tree) : Prop where
  carried : Carried t.val (t.afterPersistEpoch val tid).1.val (t.afterPersistEpoch val tid).2
  exact : t.siblingBehind val tid = true → (t.afterPersistEpoch val tid).1.Exact
  only : ∀ tids, tid ∈ tids → (t.afterPersistEpoch val tid).1.ExactOn tids →
    t.siblingBehind val tid = true

theorem persisted_of_ahead {t : Tree} (he : t.Exact) (hlt : val < t.leafVal tid)
    (h : t.afterPersistEpoch val tid = (t,none)) : Persisted val tid t := by
  have hbehind : t.siblingBehind val tid = true := by simp [Tree.siblingBehind,hlt]
  refine ⟨?_,?_,fun _ _ _ => hbehind⟩
  · rw [h]
    exact .inl ⟨rfl,rfl⟩
  · intro _
    rwa [h]

/-- The leaf, of value `old`, is one of `l` and `r`, and its sibling of value `b` the other. -/
theorem persisted_of_stored {t : Tree} {old : Nat} (hv : t.val = min old b) (hold : old ≤ val)
    (hleaf : t.leafVal tid = old) (hsibling : t.siblingVal tid = b)
    (h : t.afterPersistEpoch val tid =
      (.node (propagate (some val) t.val b).1 l r,(propagate (some val) t.val b).2))
    (hmin : min l.val r.val = min ((val + 1) % 2 ^ 64) b) (hl : l.Exact) (hr : r.Exact)
    (hhas : l.has tid = true ∨ r.has tid = true) : Persisted val tid t := by
  obtain ⟨hnew,hcarried⟩ := propagate_leaf hv hold
  have hbehind : t.siblingBehind val tid = true ↔ b ≤ val ∧ b ≤ (val + 1) % 2 ^ 64 := by
    simp only [Tree.siblingBehind,hleaf,hsibling,Bool.or_eq_true,Bool.and_eq_true,
      decide_eq_true_eq]
    omega
  refine ⟨by rw [h]; exact hcarried,?_,?_⟩
  · intro hok
    rw [h,Tree.Exact,hnew,hmin]
    exact ⟨min_stored_iff.mpr (hbehind.mp hok),hl,hr⟩
  · intro tids htid hon
    rw [h,Tree.ExactOn,hnew,hmin] at hon
    exact hbehind.mpr (min_stored_iff.mp (hon.1 ⟨tid,htid,by simpa [Tree.has] using hhas⟩))

theorem pair_persisted (he : (Tree.node v (.leaf i a) (.leaf j b)).Exact)
    (hhas : (Tree.node v (.leaf i a) (.leaf j b)).has tid = true) :
    Persisted val tid (.node v (.leaf i a) (.leaf j b)) := by
  have hv : v = min a b := he.1
  by_cases hi : i = tid
  · by_cases hold : val < a
    · refine persisted_of_ahead he (by simpa [Tree.leafVal,Tree.has,hi] using hold) ?_
      simp [Tree.afterPersistEpoch,Tree.has,propagate,hi,hold]
    · refine persisted_of_stored (l := .leaf i ((val + 1) % 2 ^ 64)) (r := .leaf j b) hv (by omega)
        (by simp [Tree.leafVal,Tree.has,hi]) (by simp [Tree.siblingVal,hi]) ?_ rfl trivial trivial
        (.inl (by simp [Tree.has,hi]))
      simp [Tree.afterPersistEpoch,Tree.has,Tree.val,hi,hold]
  · obtain rfl : j = tid := by simpa [Tree.has,hi] using hhas
    by_cases hold : val < b
    · refine persisted_of_ahead he (by simpa [Tree.leafVal,Tree.has,hi] using hold) ?_
      simp [Tree.afterPersistEpoch,Tree.has,propagate,hi,hold]
    · refine persisted_of_stored (l := .leaf i a) (r := .leaf j ((val + 1) % 2 ^ 64))
        (hv.trans (min_comm a b)) (by omega) (by simp [Tree.leafVal,Tree.has,hi])
        (by simp [Tree.siblingVal,hi]) ?_ (min_comm _ _) trivial trivial
        (.inr (by simp [Tree.has]))
      simp [Tree.afterPersistEpoch,Tree.has,Tree.val,hi,hold]

theorem persisted (hp : Paired t) (he : t.Exact) (hhas : t.has tid = true) :
    Persisted val tid t := by
  induction hp with
  | pair => exact pair_persisted he hhas
  | @node l r v hl hr ihl ihr =>
    obtain ⟨hv,hel,her⟩ := he
    cases hin : l.has tid with
    | true =>
      have hpersisted := ihl hel hin
      obtain ⟨hnew,hcarried⟩ := propagate_exact hv hpersisted.carried
      have hbehind : (Tree.node v l r).siblingBehind val tid = l.siblingBehind val tid := by
        rw [sibling_behind_node hl,if_pos hin]
      refine ⟨by rw [persist_left hin]; exact hcarried,?_,?_⟩
      · intro hok
        rw [persist_left hin]
        exact ⟨hnew,hpersisted.exact (hbehind ▸ hok),her⟩
      · intro tids htid hon
        rw [persist_left hin] at hon
        rw [hbehind]
        exact hpersisted.only tids htid hon.2.1
    | false =>
      have hin' : r.has tid = true := by simpa [Tree.has,hin] using hhas
      have hpersisted := ihr her hin'
      rw [min_comm] at hv
      obtain ⟨hnew,hcarried⟩ := propagate_exact hv hpersisted.carried
      have hbehind : (Tree.node v l r).siblingBehind val tid = r.siblingBehind val tid := by
        rw [sibling_behind_node hl,hin]
        rfl
      refine ⟨by rw [persist_right hin]; exact hcarried,?_,?_⟩
      · intro hok
        rw [persist_right hin]
        exact ⟨hnew.trans (min_comm _ _),hel,hpersisted.exact (hbehind ▸ hok)⟩
      · intro tids htid hon
        rw [persist_right hin] at hon
        rw [hbehind]
        exact hpersisted.only tids htid hon.2.2

namespace Quiescent

structure Call where
  val : Nat
  tid : Nat

structure State where
  tree : Tree
  updated : List Nat
  deriving DecidableEq

def init (n : Nat) : State := ⟨build n,[]⟩

def step (n : Nat) (s : State) (c : Call) : Option State :=
  if c.tid < n ∧ c.val ≤ uint64Max then
    some ⟨(s.tree.afterPersistEpoch c.val c.tid).1,
      if s.tree.leafVal c.tid > c.val then s.updated else c.tid :: s.updated⟩
  else none

def siblingBehind (s : State) (c : Call) : Bool := s.tree.siblingBehind c.val c.tid

structure Right (s : State) : Prop where
  exact : s.tree.ExactOn s.updated
  answers : s.tree.Answers

structure Inv (n : Nat) (s : State) : Prop where
  paired : Paired s.tree
  exact : s.tree.Exact
  leaves : s.tree.entries.map Prod.fst = List.range (threadCnt n)

theorem Inv.right (h : Inv n s) : Right s := ⟨h.exact.on _,h.exact.answers h.paired⟩

theorem Inv.step (h : Inv n s) (hok : siblingBehind s c = true)
    (hs : step n s c = some s') : Inv n s' := by
  simp only [Quiescent.step] at hs
  split at hs
  next hc =>
    cases hs
    exact ⟨persist_paired h.paired _ _,
      (persisted h.paired h.exact (has_of_leaves h.leaves hc.1)).exact hok,
      (persist_leaves _ _ _).trans h.leaves⟩
  next => cases hs

theorem Inv.breaks (h : Inv n s) (hbad : ¬siblingBehind s c = true)
    (hs : Quiescent.step n s c = some s') : ¬Right s' := by
  simp only [Quiescent.step] at hs
  split at hs
  next hc =>
    cases hs
    intro hright
    refine hbad ((persisted h.paired h.exact (has_of_leaves h.leaves hc.1)).only _ ?_ hright.exact)
    have hle : ¬s.tree.leafVal c.tid > c.val := by
      intro hgt
      exact hbad (by simp [siblingBehind,Tree.siblingBehind,hgt])
    rw [if_neg hle]
    exact mem_cons_self
  next => cases hs

theorem first_scan_exact (h : FirstScan n t) (hc : t.Clean) : t.Exact := by
  induction h with
  | @pair i a j b v hi ha hb hv =>
    have hzero : v = 0 := hc.1
    refine ⟨?_,trivial,trivial⟩
    simp only [Tree.val]
    split at hv <;> omega
  | node _ _ hv ihl ihr => exact ⟨hv,ihl hc.2.1,ihr hc.2.2⟩

theorem init_inv (hn : 0 < n) : Inv n (init n) :=
  ⟨(build_shape hn).1,first_scan_exact (build_first_scan hn) (build_shape hn).2.1,
    (build_distinct hn).2⟩

/-- The internal nodes are the minima of their children, on the paths of the leaves that have been
stored to, and the search from the root answers, after every call of a sequence exactly if every
call finds the sibling of its leaf behind. -/
theorem exact_iff_sibling_behind {ms : List (Move State Call)} (hn : 0 < n)
    (run : Run (step n) (fun _ _ => True) (init n) ms s) :
    Right (init n) ∧
      ((∀ m ∈ ms, Right m.post) ↔ ∀ m ∈ ms, siblingBehind m.pre m.act = true) := by
  refine ⟨(init_inv hn).right,
    run.good_iff (Inv n) Right (fun s c => siblingBehind s c = true) (init_inv hn) ?_ ?_⟩
  · intro s c s' h hok hs
    have h' := h.step hok hs
    exact ⟨h',h'.right⟩
  · intro s c s' h hbad hs
    exact h.breaks hbad hs

/-- Two of three workers take turns. -/
theorem exact_iff_sibling_behind_turns : ∃ ms s,
    Run (step 3) (fun _ _ => True) (init 3) ms s ∧
      s.tree = .node 0 (.node 5 (.leaf 0 6) (.leaf 1 5)) (.node 0 (.leaf 2 0) (.leaf 3 uint64Max)) ∧
      ∀ m ∈ ms, Right m.post := by
  obtain ⟨ms,s,run,hend⟩ := Run.play (step 3) siblingBehind
    (fun s => s.tree =
      .node 0 (.node 5 (.leaf 0 6) (.leaf 1 5)) (.node 0 (.leaf 2 0) (.leaf 3 uint64Max)))
    (init 3) [⟨2,0⟩,⟨4,1⟩,⟨5,0⟩,⟨1,0⟩] (by decide +kernel)
  have hfine := fun m hm =>
    (run.each (fun _ => True) trivial (fun _ _ _ _ _ _ => trivial) m hm).2.1
  have run' := run.weaken fun _ _ _ => trivial
  exact ⟨ms,s,run',of_decide_eq_true hend,
    ((exact_iff_sibling_behind (by decide) run').2).mpr hfine⟩

/-- One worker persists epoch 2: the root is 2 and its leaves are 3 and the padding, and the search
for epoch 2 goes on for ever. -/
theorem root_lags_behind : ∃ s,
    Run (step 1) (fun _ _ => True) (init 1) [⟨init 1,⟨2,0⟩,s⟩] s ∧
      s.tree = .node 2 (.leaf 0 3) (.leaf 1 uint64Max) ∧ ¬s.tree.ExactOn s.updated ∧
      ∀ fuel, s.tree.nextThreadFromRoot 2 fuel = none := by
  refine ⟨⟨.node 2 (.leaf 0 3) (.leaf 1 uint64Max),[0]⟩,.snoc .nil trivial (by decide),rfl,?_,?_⟩
  · intro h
    exact absurd (h.1 ⟨0,by simp,by simp [Tree.has]⟩) (by decide)
  · intro fuel
    induction fuel with
    | zero => rfl
    | succ _ ih => exact ih

end Quiescent

end Montage.Mindicator
