import Montage.Mindicator.Tree
import Mathlib.Data.List.Nodup

namespace Montage.Mindicator
open List

def Tree.val : Tree → Nat
  | .null => nullEpoch
  | .leaf _ v => v
  | .node v _ _ => v

def Tree.has (i : Nat) : Tree → Bool
  | .null => false
  | .leaf j _ => j = i
  | .node _ l r => l.has i || r.has i

def Tree.leafVal (tid : Nat) : Tree → Nat
  | .null => nullEpoch
  | .leaf _ v => v
  | .node _ l r => if l.has tid then l.leafVal tid else r.leafVal tid

/-- `propagate` at a node of value `old`, with the value that comes up from one child and
the value of the other. Without contention its CAS succeeds at once. Returns the new value
of the node and what goes on upwards. -/
def propagate (carried : Option Nat) (old sibling : Nat) : Nat × Option Nat :=
  match carried with
  | none => (old,none)
  | some val =>
    let newMin := min val sibling
    if newMin > old then (newMin,some newMin) else (old,none)

/-- `after_persist_epoch(val, tid)`: the leaf is set to `val+1`, but it is `val` that is
propagated along its path, which is walked from the leaf upwards. -/
def Tree.afterPersistEpoch (val tid : Nat) : Tree → Tree × Option Nat
  | .null => (.null,none)
  | .leaf i old =>
    if i = tid then
      if old > val then (.leaf i old,none) else (.leaf i ((val + 1) % 2 ^ 64),some val)
    else (.leaf i old,none)
  | .node v l r =>
    if l.has tid then
      let up := l.afterPersistEpoch val tid
      let new := propagate up.2 v r.val
      (.node new.1 up.1 r,new.2)
    else
      let up := r.afterPersistEpoch val tid
      let new := propagate up.2 v l.val
      (.node new.1 l up.1,new.2)

def Tree.findNextThreadLe (val : Nat) : Tree → Option Nat
  | .null => none
  | .leaf i v => if v > val then none else some i
  | .node v l r =>
    if v > val then none else (l.findNextThreadLe val).or (r.findNextThreadLe val)

/-- The climb of `next_thread_to_persist(val, curr)` along the path of `curr`: the lowest
node that yields a thread from its other side decides. -/
def Tree.climb (val curr : Nat) : Tree → Option Nat
  | .null | .leaf _ _ => none
  | .node v l r =>
    if l.has curr then
      (l.climb val curr).or (if v < val then r.findNextThreadLe val else none)
    else (r.climb val curr).or (if v < val then l.findNextThreadLe val else none)

def Tree.nextThreadToPersist (val curr : Nat) (t : Tree) : Option Nat :=
  if t.leafVal curr ≤ val then some curr else t.climb val curr

/-- The loop of `on_epoch_end`, which persists epoch `val` of one thread after the other.
Returns the tree and the threads in order. -/
def scan (val : Nat) : Nat → Option Nat → Tree → Option (Tree × List Nat)
  | _, none, t => some (t,[])
  | 0, some _, _ => none
  | fuel + 1, some i, t =>
    let t' := (t.afterPersistEpoch val i).1
    (scan val fuel (t'.nextThreadToPersist val i) t').map fun r => (r.1,i :: r.2)

/-- `on_epoch_end(c)` of an advancer that starts at thread `start`. -/
def onEpochEnd (fuel c start : Nat) (t : Tree) : Option (Tree × List Nat) :=
  scan (c - 1) fuel (t.nextThreadToPersist (c - 1) start) t

/-- The trees an advancer meets when it ends one epoch after the other, from a fresh
tracker for `n` threads and epoch `INIT_EPOCH` on. -/
inductive Reaches (n : Nat) : Nat → Tree → Prop
  | init : Reaches n initEpoch (build n)
  | next (h : Reaches n c t) (hc : c < uint64Max) (hs : start < n)
      (he : onEpochEnd fuel c start t = some (t',log)) : Reaches n (c + 1) t'

/-- The end of epoch `c` comes to an end, has persisted the epoch before it for every
worker that lags behind, leaves no worker lagging behind, and so misses no worker. -/
def Persists (n c start : Nat) (t : Tree) : Prop :=
  ∃ fuel t' log, onEpochEnd fuel c start t = some (t',log) ∧
    (∀ w < n, t.leafVal w ≤ c - 1 → w ∈ log) ∧ (∀ w < n, c - 1 < t'.leafVal w) ∧
    ∀ w < n, w ∈ log

theorem scan_rule (val : Nat) (I : Option Nat → Tree → Prop)
    (keep : ∀ i t, I (some i) t → I ((t.afterPersistEpoch val i).1.nextThreadToPersist val i)
      (t.afterPersistEpoch val i).1)
    (h : I o t) (hs : scan val fuel o t = some (t',log)) : I none t' := by
  induction fuel generalizing o t log with
  | zero =>
    cases o with
    | none => cases hs; exact h
    | some => cases hs
  | succ _ ih =>
    cases o with
    | none => cases hs; exact h
    | some i =>
      obtain ⟨⟨t1,log1⟩,hs1,heq⟩ := Option.map_eq_some_iff.mp hs
      cases heq
      exact ih (keep i t h) hs1

theorem has_iff (t : Tree) : t.has i = true ↔ i ∈ t.entries.map Prod.fst := by
  induction t with
  | null => simp [Tree.has,Tree.entries]
  | leaf => simp [Tree.has,Tree.entries,eq_comm]
  | node v l r ihl ihr => simp only [Tree.has,Tree.entries,Bool.or_eq_true,map_append,
      mem_append,ihl,ihr]

def Tree.Distinct (t : Tree) : Prop := (t.entries.map Prod.fst).Nodup

theorem Tree.Distinct.node (h : (Tree.node v l r).Distinct) :
    l.Distinct ∧ r.Distinct ∧ ∀ i, r.has i = true → l.has i = false := by
  simp only [Tree.Distinct,Tree.entries,map_append] at h
  obtain ⟨hl,hr,hdisjoint⟩ := nodup_append.mp h
  refine ⟨hl,hr,?_⟩
  intro i hi
  by_contra hcon
  exact hdisjoint i ((has_iff l).mp (by simpa using hcon)) i ((has_iff r).mp hi) rfl

theorem leaf_val_mem (t : Tree) (h : t.has i = true) : (i,t.leafVal i) ∈ t.entries := by
  induction t with
  | null => simp [Tree.has] at h
  | leaf =>
    simp only [Tree.has,decide_eq_true_eq] at h
    simp [Tree.entries,Tree.leafVal,h]
  | node v l r ihl ihr =>
    simp only [Tree.entries,Tree.leafVal,mem_append]
    by_cases hl : l.has i = true
    · rw [if_pos hl]
      exact .inl (ihl hl)
    · rw [if_neg hl]
      simp only [Tree.has,Bool.or_eq_true] at h
      exact .inr (ihr (h.resolve_left hl))

theorem leaf_val_eq (t : Tree) (hd : t.Distinct) (h : (i,a) ∈ t.entries) : t.leafVal i = a := by
  have hhas : t.has i = true := (has_iff t).mpr (mem_map.mpr ⟨(i,a),h,rfl⟩)
  have hmem := leaf_val_mem t hhas
  have := inj_on_of_nodup_map hd hmem h rfl
  exact (Prod.mk.inj this).2

theorem persist_leaves (val tid : Nat) (t : Tree) :
    ((t.afterPersistEpoch val tid).1.entries.map Prod.fst) = t.entries.map Prod.fst := by
  induction t with
  | null => rfl
  | leaf =>
    unfold Tree.afterPersistEpoch
    split
    · split <;> rfl
    · rfl
  | node v l r ihl ihr =>
    unfold Tree.afterPersistEpoch
    split
    · simp [Tree.entries,ihl]
    · simp [Tree.entries,ihr]

def Carried (old new : Nat) (carried : Option Nat) : Prop :=
  carried = none ∧ new = old ∨ carried = some new ∧ old < new

theorem propagate_exact (hv : v = min old sibling) (hc : Carried old new carried) :
    (propagate carried v sibling).1 = min new sibling ∧
      Carried v (propagate carried v sibling).1 (propagate carried v sibling).2 := by
  rcases hc with ⟨rfl,rfl⟩ | ⟨rfl,hlt⟩
  · exact ⟨hv,.inl ⟨rfl,rfl⟩⟩
  · simp only [propagate]
    split
    next hgt => exact ⟨rfl,.inr ⟨rfl,hgt⟩⟩
    next => exact ⟨by simp only; omega,.inl ⟨rfl,rfl⟩⟩

/-- The first scan, of epoch 2: a leaf is 0 or, once persisted, 3, and a node is 0 or, once
all its leaves are persisted, 2. -/
inductive FirstScan (n : Nat) : Tree → Prop
  | pair (hi : i < n) (ha : a = 0 ∨ a = 3)
      (hb : j < n ∧ (b = 0 ∨ b = 3) ∨ n ≤ j ∧ b = uint64Max)
      (hv : v = if a = 0 ∨ b = 0 then 0 else 2) : FirstScan n (.node v (.leaf i a) (.leaf j b))
  | node (hl : FirstScan n l) (hr : FirstScan n r) (hv : v = min l.val r.val) :
      FirstScan n (.node v l r)

theorem propagate_pair (hv : v = 0) (hb : b = 0 ∨ b = 3 ∨ b = uint64Max) :
    (propagate (some 2) v b).1 = (if b = 0 then 0 else 2) ∧
      Carried v (propagate (some 2) v b).1 (propagate (some 2) v b).2 := by
  subst hv
  rcases hb with rfl | rfl | rfl <;> simp [propagate,Carried,uint64Max]

theorem first_scan_persist (h : FirstScan n t) (k : Nat) :
    FirstScan n (t.afterPersistEpoch 2 k).1 ∧
      Carried t.val (t.afterPersistEpoch 2 k).1.val (t.afterPersistEpoch 2 k).2 := by
  induction h with
  | @pair i a j b v hi ha hb hv =>
    by_cases hki : i = k
    · rcases ha with rfl | rfl
      · have hleaf : (Tree.node v (.leaf i 0) (.leaf j b)).afterPersistEpoch 2 k =
            (.node (propagate (some 2) v b).1 (.leaf i 3) (.leaf j b),
              (propagate (some 2) v b).2) := by
          simp [Tree.afterPersistEpoch,Tree.has,Tree.val,hki]
        rw [hleaf]
        have hother : b = 0 ∨ b = 3 ∨ b = uint64Max := by omega
        obtain ⟨hval,hcarried⟩ := propagate_pair (hv.trans (by simp)) hother
        exact ⟨.pair hi (.inr rfl) hb (by simp [hval]),hcarried⟩
      · have hleaf : (Tree.node v (.leaf i 3) (.leaf j b)).afterPersistEpoch 2 k =
            (.node v (.leaf i 3) (.leaf j b),none) := by
          simp [Tree.afterPersistEpoch,Tree.has,hki,propagate]
        rw [hleaf]
        exact ⟨.pair hi (.inr rfl) hb hv,.inl ⟨rfl,rfl⟩⟩
    · by_cases hb0 : j = k ∧ b = 0
      · obtain ⟨hkj,rfl⟩ := hb0
        have hj : j < n := by
          rcases hb with ⟨hj,-⟩ | ⟨-,hb⟩
          · exact hj
          · cases hb
        have hleaf : (Tree.node v (.leaf i a) (.leaf j 0)).afterPersistEpoch 2 k =
            (.node (propagate (some 2) v a).1 (.leaf i a) (.leaf j 3),
              (propagate (some 2) v a).2) := by
          simp [Tree.afterPersistEpoch,Tree.has,Tree.val,hki,hkj]
        rw [hleaf]
        have hother : a = 0 ∨ a = 3 ∨ a = uint64Max := by omega
        obtain ⟨hval,hcarried⟩ := propagate_pair (hv.trans (by simp)) hother
        exact ⟨.pair hi ha (.inl ⟨hj,.inr rfl⟩) (by simp [hval]),hcarried⟩
      · have hleaf : (Tree.node v (.leaf i a) (.leaf j b)).afterPersistEpoch 2 k =
            (.node v (.leaf i a) (.leaf j b),none) := by
          by_cases hkj : j = k
          · have hgt : 2 < b := by
              simp only [uint64Max] at hb
              omega
            simp [Tree.afterPersistEpoch,Tree.has,hki,hkj,propagate,hgt]
          · simp [Tree.afterPersistEpoch,Tree.has,hki,hkj,propagate]
        rw [hleaf]
        exact ⟨.pair hi ha hb hv,.inl ⟨rfl,rfl⟩⟩
  | @node l r v hl hr hv ihl ihr =>
    unfold Tree.afterPersistEpoch
    split
    · obtain ⟨hval,hcarried⟩ := propagate_exact hv ihl.2
      exact ⟨.node ihl.1 hr hval,hcarried⟩
    · rw [min_comm] at hv
      obtain ⟨hval,hcarried⟩ := propagate_exact hv ihr.2
      exact ⟨.node hl ihr.1 (by rw [min_comm]; exact hval),hcarried⟩

/-- A subtree that the second scan, of epoch 3, has not come to. -/
inductive Fresh (n : Nat) : Tree → Prop
  | pair (hb : b = 3 ∨ n ≤ j ∧ b = uint64Max) : Fresh n (.node 2 (.leaf i 3) (.leaf j b))
  | node (hl : Fresh n l) (hr : Fresh n r) : Fresh n (.node 2 l r)

/-- A subtree that the second scan takes for finished: of each pair one leaf has been
persisted, and that was enough for the pair to have the value 3. -/
inductive Shut (n : Nat) : Tree → Prop
  | first (hb : b = 3 ∨ n ≤ j ∧ b = uint64Max) : Shut n (.node 3 (.leaf i 4) (.leaf j b))
  | second : Shut n (.node 3 (.leaf i 3) (.leaf j 4))
  | node (hl : Shut n l) (hr : Shut n r) : Shut n (.node 3 l r)

/-- The second scan has just persisted thread `k`: nodes of value 2 with a persisted leaf
are on the path of `k`. -/
inductive Scanning (n k : Nat) : Tree → Prop
  | shut (h : Shut n t) (hk : (k,4) ∈ t.entries) : Scanning n k t
  | leftFresh (hl : Scanning n k l) (hr : Fresh n r) : Scanning n k (.node 2 l r)
  | leftShut (hl : Scanning n k l) (hv : l.val = 2) (hr : Shut n r) : Scanning n k (.node 2 l r)
  | rightFresh (hl : Fresh n l) (hr : Scanning n k r) : Scanning n k (.node 2 l r)
  | rightShut (hl : Shut n l) (hr : Scanning n k r) (hv : r.val = 2) : Scanning n k (.node 2 l r)

theorem Fresh.val (h : Fresh n t) : t.val = 2 := by cases h <;> rfl

theorem Shut.val (h : Shut n t) : t.val = 3 := by cases h <;> rfl

theorem Scanning.mem (h : Scanning n k t) : (k,4) ∈ t.entries := by
  induction h with
  | shut h hk => exact hk
  | leftFresh _ _ ih | leftShut _ _ _ ih => exact mem_append_left _ ih
  | rightFresh _ _ ih | rightShut _ _ _ ih => exact mem_append_right _ ih

theorem Scanning.has (h : Scanning n k t) : t.has k = true :=
  (has_iff t).mpr (mem_map.mpr ⟨_,h.mem,rfl⟩)

theorem Scanning.cases (h : Scanning n k t) : Shut n t ∨ t.val = 2 := by
  cases h with
  | shut h => exact .inl h
  | leftFresh | leftShut | rightFresh | rightShut => exact .inr rfl

inductive Lags (n : Nat) : Tree → Prop
  | pair (h : a ≤ 3 ∨ b ≤ 3 ∨ n ≤ j) : Lags n (.node v (.leaf i a) (.leaf j b))
  | node (hl : Lags n l) (hr : Lags n r) : Lags n (.node v l r)

theorem Fresh.lags (h : Fresh n t) : Lags n t := by
  induction h with
  | pair => exact .pair (.inl (by decide))
  | node _ _ ihl ihr => exact .node ihl ihr

theorem Shut.lags (h : Shut n t) : Lags n t := by
  induction h with
  | first => exact .pair (by omega)
  | second => exact .pair (.inl (by decide))
  | node _ _ ihl ihr => exact .node ihl ihr

theorem Scanning.lags (h : Scanning n k t) : Lags n t := by
  induction h with
  | shut h => exact h.lags
  | leftFresh _ hr ih | leftShut _ _ hr ih => exact .node ih hr.lags
  | rightFresh hl _ ih | rightShut hl _ _ ih => exact .node hl.lags ih

def PassesOn (t : Tree × Option Nat) : Prop := t.2 = if t.1.val = 3 then some 3 else none

theorem propagate_stops (hp : PassesOn t) : propagate t.2 2 2 = (2,none) := by
  rw [hp]
  split <;> rfl

theorem propagate_shut (hp : PassesOn t) (hv : t.1.val = 3) : propagate t.2 2 3 = (3,some 3) := by
  rw [hp,if_pos hv]
  rfl

theorem propagate_open (hp : PassesOn t) (hv : t.1.val = 2) : propagate t.2 2 3 = (2,none) := by
  rw [hp,hv]
  rfl

theorem left_step {up : Tree × Option Nat} (hup : Scanning n i up.1) (hp : PassesOn up)
    (hr : Fresh n r ∨ Shut n r) :
    Scanning n i (.node (propagate up.2 2 r.val).1 up.1 r) ∧
      PassesOn (.node (propagate up.2 2 r.val).1 up.1 r,(propagate up.2 2 r.val).2) := by
  rcases hr with hr | hr
  · rw [hr.val,propagate_stops hp]
    exact ⟨.leftFresh hup hr,rfl⟩
  · rw [hr.val]
    rcases hup.cases with hshut | hval
    · rw [propagate_shut hp hshut.val]
      exact ⟨.shut (.node hshut hr) (mem_append_left _ hup.mem),rfl⟩
    · rw [propagate_open hp hval]
      exact ⟨.leftShut hup hval hr,rfl⟩

theorem right_step {up : Tree × Option Nat} (hup : Scanning n i up.1) (hp : PassesOn up)
    (hl : Fresh n l ∨ Shut n l) :
    Scanning n i (.node (propagate up.2 2 l.val).1 l up.1) ∧
      PassesOn (.node (propagate up.2 2 l.val).1 l up.1,(propagate up.2 2 l.val).2) := by
  rcases hl with hl | hl
  · rw [hl.val,propagate_stops hp]
    exact ⟨.rightFresh hl hup,rfl⟩
  · rw [hl.val]
    rcases hup.cases with hshut | hval
    · rw [propagate_shut hp hshut.val]
      exact ⟨.shut (.node hl hshut) (mem_append_right _ hup.mem),rfl⟩
    · rw [propagate_open hp hval]
      exact ⟨.rightShut hl hup hval,rfl⟩

theorem persist_left (h : l.has i = true) :
    (Tree.node v l r).afterPersistEpoch x i =
      (.node (propagate (l.afterPersistEpoch x i).2 v r.val).1 (l.afterPersistEpoch x i).1 r,
        (propagate (l.afterPersistEpoch x i).2 v r.val).2) := by
  rw [Tree.afterPersistEpoch,if_pos h]

theorem persist_right (h : l.has i = false) :
    (Tree.node v l r).afterPersistEpoch x i =
      (.node (propagate (r.afterPersistEpoch x i).2 v l.val).1 l (r.afterPersistEpoch x i).1,
        (propagate (r.afterPersistEpoch x i).2 v l.val).2) := by
  rw [Tree.afterPersistEpoch,if_neg (by simp [h])]

theorem has_of_mem (t : Tree) (h : (i,a) ∈ t.entries) : t.has i = true :=
  (has_iff t).mpr (mem_map.mpr ⟨_,h,rfl⟩)

theorem Fresh.find (h : Fresh n t) : ∃ i, t.findNextThreadLe 3 = some i ∧ (i,3) ∈ t.entries := by
  induction h with
  | @pair b j i hb => exact ⟨i,by simp [Tree.findNextThreadLe],by simp [Tree.entries]⟩
  | node _ _ ihl =>
    obtain ⟨i,hfind,hmem⟩ := ihl
    exact ⟨i,by simp [Tree.findNextThreadLe,hfind],mem_append_left _ hmem⟩

theorem Fresh.persist (h : Fresh n t) (hd : t.Distinct) (hi : (i,3) ∈ t.entries) :
    Scanning n i (t.afterPersistEpoch 3 i).1 ∧ PassesOn (t.afterPersistEpoch 3 i) := by
  induction h with
  | @pair b j f hb =>
    by_cases hf : f = i
    · subst hf
      have hmin : min 3 b = 3 := by
        simp only [uint64Max] at hb
        omega
      have hleaf : (Tree.node 2 (.leaf f 3) (.leaf j b)).afterPersistEpoch 3 f =
          (.node 3 (.leaf f 4) (.leaf j b),some 3) := by
        simp [Tree.afterPersistEpoch,Tree.has,Tree.val,propagate,hmin]
      rw [hleaf]
      exact ⟨.shut (.first hb) (by simp [Tree.entries]),rfl⟩
    · obtain ⟨rfl,rfl⟩ : i = j ∧ 3 = b := by
        simpa [Tree.entries,Ne.symm hf] using hi
      have hleaf : (Tree.node 2 (.leaf f 3) (.leaf i 3)).afterPersistEpoch 3 i =
          (.node 3 (.leaf f 3) (.leaf i 4),some 3) := by
        simp [Tree.afterPersistEpoch,Tree.has,Tree.val,propagate,hf]
      rw [hleaf]
      exact ⟨.shut .second (by simp [Tree.entries]),rfl⟩
  | @node l r hl hr ihl ihr =>
    obtain ⟨hdl,hdr,hdisjoint⟩ := hd.node
    rcases mem_append.mp hi with hi | hi
    · obtain ⟨hs,hp⟩ := ihl hdl hi
      rw [persist_left (has_of_mem l hi)]
      exact left_step hs hp (.inl hr)
    · obtain ⟨hs,hp⟩ := ihr hdr hi
      rw [persist_right (hdisjoint i (has_of_mem r hi))]
      exact right_step hs hp (.inl hl)

theorem Shut.climb (h : Shut n t) (k : Nat) : t.climb 3 k = none := by
  induction h with
  | first | second => simp [Tree.climb]
  | node _ _ ihl ihr => simp [Tree.climb,ihl,ihr]

theorem Scanning.has_persisted {t : Tree} (h : Scanning n i (t.afterPersistEpoch x i).1) :
    t.has i = true := by
  rw [has_iff,← persist_leaves x i t,← has_iff]
  exact h.has

/-- The second scan goes on to a fresh subtree next to the lowest open node, or ends. -/
theorem Scanning.step (h : Scanning n k t) (hd : t.Distinct) :
    (Shut n t ∧ t.climb 3 k = none) ∨
      (t.val = 2 ∧ ∃ i, t.climb 3 k = some i ∧ Scanning n i (t.afterPersistEpoch 3 i).1 ∧
        PassesOn (t.afterPersistEpoch 3 i)) := by
  induction h with
  | shut h => exact .inl ⟨h,h.climb k⟩
  | @leftFresh l r hl hr ih =>
    obtain ⟨hdl,hdr,hdisjoint⟩ := hd.node
    rcases ih hdl with ⟨hshut,hnone⟩ | ⟨hval,i,hclimb,hs,hp⟩
    · obtain ⟨i,hfind,hmem⟩ := hr.find
      obtain ⟨hs,hp⟩ := hr.persist hdr hmem
      refine .inr ⟨rfl,i,by simp [Tree.climb,hl.has,hnone,hfind],?_⟩
      rw [persist_right (hdisjoint i (has_of_mem r hmem))]
      exact right_step hs hp (.inr hshut)
    · refine .inr ⟨rfl,i,by simp [Tree.climb,hl.has,hclimb],?_⟩
      rw [persist_left hs.has_persisted]
      exact left_step hs hp (.inl hr)
  | @leftShut l r hl hv hr ih =>
    obtain ⟨hdl,-,-⟩ := hd.node
    rcases ih hdl with ⟨hshut,-⟩ | ⟨hval,i,hclimb,hs,hp⟩
    · rw [hshut.val] at hv; cases hv
    · refine .inr ⟨rfl,i,by simp [Tree.climb,hl.has,hclimb],?_⟩
      rw [persist_left hs.has_persisted]
      exact left_step hs hp (.inr hr)
  | @rightFresh l r hl hr ih =>
    obtain ⟨hdl,hdr,hdisjoint⟩ := hd.node
    have hk : l.has k = false := hdisjoint k hr.has
    rcases ih hdr with ⟨hshut,hnone⟩ | ⟨hval,i,hclimb,hs,hp⟩
    · obtain ⟨i,hfind,hmem⟩ := hl.find
      obtain ⟨hs,hp⟩ := hl.persist hdl hmem
      refine .inr ⟨rfl,i,by simp [Tree.climb,hk,hnone,hfind],?_⟩
      rw [persist_left (has_of_mem l hmem)]
      exact left_step hs hp (.inr hshut)
    · refine .inr ⟨rfl,i,by simp [Tree.climb,hk,hclimb],?_⟩
      rw [persist_right (hdisjoint i hs.has_persisted)]
      exact right_step hs hp (.inl hl)
  | @rightShut l r hl hr hv ih =>
    obtain ⟨-,hdr,hdisjoint⟩ := hd.node
    have hk : l.has k = false := hdisjoint k hr.has
    rcases ih hdr with ⟨hshut,-⟩ | ⟨hval,i,hclimb,hs,hp⟩
    · rw [hshut.val] at hv; cases hv
    · refine .inr ⟨rfl,i,by simp [Tree.climb,hk,hclimb],?_⟩
      rw [persist_right (hdisjoint i hs.has_persisted)]
      exact right_step hs hp (.inr hl)

theorem first_scan_build (hp : Paired t) (hc : t.Clean)
    (he : t.entries = (List.range' s len).map fun i => (i,initVal n i)) (hs : s % 2 = 0)
    (hle : s + len ≤ threadCnt n) : FirstScan n t ∧ t.val = 0 ∧ len % 2 = 0 := by
  induction hp generalizing s len with
  | @pair v i a j b =>
    obtain ⟨hv,-,-⟩ := hc
    have hlen : len = 2 := by simpa [Tree.entries] using (congrArg List.length he).symm
    subst hlen
    simp only [Tree.entries,range'_succ,range'_zero,map_cons,map_nil,
      singleton_append,cons.injEq,Prod.mk.injEq,and_true] at he
    obtain ⟨⟨rfl,rfl⟩,rfl,rfl⟩ := he
    have hcnt : threadCnt n ≤ n + 1 ∧ (n % 2 = 1 → threadCnt n = n + 1) ∧
        (n % 2 = 0 → threadCnt n = n) := by
      unfold threadCnt
      split <;> omega
    have hfirst : initVal n i = 0 := by
      rw [initVal,if_neg (by omega)]
      rfl
    refine ⟨.pair (by omega) (.inl hfirst) ?_ (by simp [hfirst,hv,nullEpoch]),hv,by decide⟩
    by_cases hj : i + 1 < n
    · exact .inl ⟨hj,.inl (by rw [initVal,if_neg (by omega)]; rfl)⟩
    · exact .inr ⟨by omega,by rw [initVal,if_pos (by omega)]⟩
  | @node l r v hl hr ihl ihr =>
    obtain ⟨hv,hcl,hcr⟩ := hc
    obtain ⟨xs,ys,hrange,hxs,hys⟩ := map_eq_append_iff.mp he.symm
    obtain ⟨k,hk,rfl,rfl⟩ := range'_eq_append_iff.mp hrange
    obtain ⟨hfl,hvl,hkl⟩ := ihl hcl hxs.symm hs (by omega)
    obtain ⟨hfr,hvr,hkr⟩ := ihr hcr hys.symm (by omega) (by omega)
    exact ⟨.node hfl hfr (by rw [hvl,hvr,hv]; rfl),hv,by omega⟩

theorem build_first_scan (hn : 0 < n) : FirstScan n (build n) := by
  obtain ⟨hpaired,hclean,hentries⟩ := build_shape hn
  refine (first_scan_build hpaired hclean (s := 0) ?_ rfl (le_of_eq (Nat.zero_add _))).1
  rw [hentries,range_eq_range']

theorem first_scan_fresh (h : FirstScan n t) (hall : ∀ e ∈ t.entries, e.1 < n → 2 < e.2) :
    Fresh n t := by
  induction h with
  | @pair i a j b v hi ha hb hv =>
    have ha' := hall (i,a) (by simp [Tree.entries]) hi
    obtain rfl : a = 3 := by simp only at ha'; omega
    have hb' : b = 3 ∨ n ≤ j ∧ b = uint64Max := by
      rcases hb with ⟨hj,hb⟩ | hb
      · have := hall (j,b) (by simp [Tree.entries]) hj
        simp only at this
        omega
      · exact .inr hb
    have hb0 : b ≠ 0 := by
      simp only [uint64Max] at hb'
      omega
    rw [hv,if_neg (by omega)]
    exact .pair hb'
  | @node l r v hl hr hv ihl ihr =>
    have hfl := ihl fun e he => hall e (mem_append_left _ he)
    have hfr := ihr fun e he => hall e (mem_append_right _ he)
    rw [hv,hfl.val,hfr.val]
    exact .node hfl hfr

theorem Fresh.entry (h : Fresh n t) (hi : (i,a) ∈ t.entries) (hn : i < n) : a = 3 := by
  induction h with
  | @pair b j f hb =>
    simp only [Tree.entries,cons_append,nil_append,mem_cons,Prod.mk.injEq,
      not_mem_nil,or_false] at hi
    omega
  | node _ _ ihl ihr =>
    rcases mem_append.mp hi with hi | hi
    · exact ihl hi
    · exact ihr hi

theorem second_scan (hfresh : Fresh n t) (hd : t.Distinct) (hs : start < n)
    (hstart : t.has start = true)
    (h : scan 3 fuel (t.nextThreadToPersist 3 start) t = some (t',log)) :
    Lags n t' ∧ t'.entries.map Prod.fst = t.entries.map Prod.fst := by
  have hmem := leaf_val_mem t hstart
  have hval : t.leafVal start = 3 := hfresh.entry hmem hs
  rw [hval] at hmem
  have hrule := scan_rule 3 (fun o u => Lags n u ∧
    u.entries.map Prod.fst = t.entries.map Prod.fst ∧
    ∀ i, o = some i → Scanning n i (u.afterPersistEpoch 3 i).1) ?_ ?_ h
  · exact ⟨hrule.1,hrule.2.1⟩
  · intro i u hu
    obtain ⟨-,hleaves,hnext⟩ := hu
    have hscan := hnext i rfl
    have hleaves' := (persist_leaves 3 i u).trans hleaves
    have hdistinct : (u.afterPersistEpoch 3 i).1.Distinct := by
      rw [Tree.Distinct,hleaves']
      exact hd
    refine ⟨hscan.lags,hleaves',?_⟩
    intro k hk
    have hfour := leaf_val_eq _ hdistinct hscan.mem
    rw [Tree.nextThreadToPersist,if_neg (by omega)] at hk
    rcases hscan.step hdistinct with ⟨-,hnone⟩ | ⟨-,m,hclimb,hm,-⟩
    · rw [hnone] at hk; cases hk
    · rw [hclimb] at hk
      cases hk
      exact hm
  · refine ⟨hfresh.lags,rfl,?_⟩
    intro i hi
    rw [Tree.nextThreadToPersist,if_pos (by omega)] at hi
    cases hi
    exact (hfresh.persist hd hmem).1

theorem Lags.length (h : Lags n t) : 2 ≤ t.entries.length := by
  induction h with
  | pair => simp [Tree.entries]
  | node => simp only [Tree.entries,length_append]; omega

theorem Lags.worker (h : Lags n t) (hl : t.entries.map Prod.fst = i :: j :: rest) (hi : i < n)
    (hj : j < n) : ∃ e ∈ t.entries, e.1 < n ∧ e.2 ≤ 3 := by
  induction h generalizing rest with
  | @pair a b j' v i' h =>
    simp only [Tree.entries,cons_append,nil_append,map_cons,map_nil,
      cons.injEq] at hl
    obtain ⟨rfl,rfl,-⟩ := hl
    rcases h with ha | hb | hn
    · exact ⟨(i',a),by simp [Tree.entries],hi,ha⟩
    · exact ⟨(j',b),by simp [Tree.entries],hj,hb⟩
    · omega
  | @node l r v hl' hr' ihl ihr =>
    have hlen := hl'.length
    rw [← length_map (f := Prod.fst)] at hlen
    obtain ⟨x,xs,hx⟩ := exists_cons_of_length_pos (lt_of_lt_of_le (by decide) hlen)
    rw [hx,length_cons] at hlen
    obtain ⟨y,ys,hy⟩ := exists_cons_of_length_pos (Nat.le_of_succ_le_succ hlen)
    rw [hy] at hx
    simp only [Tree.entries,map_append,hx,cons_append,cons.injEq] at hl
    obtain ⟨rfl,rfl,-⟩ := hl
    obtain ⟨e,he,hbad⟩ := ihl hx
    exact ⟨e,mem_append_left _ he,hbad⟩

theorem build_distinct (h : 0 < n) :
    (build n).Distinct ∧ (build n).entries.map Prod.fst = List.range (threadCnt n) := by
  have hleaves : (build n).entries.map Prod.fst = List.range (threadCnt n) := by
    rw [(build_shape h).2.2,map_map]
    exact map_id _
  exact ⟨by rw [Tree.Distinct,hleaves]; exact nodup_range,hleaves⟩

theorem has_of_leaves {t : Tree} (h : t.entries.map Prod.fst = List.range (threadCnt n))
    (hw : w < n) : t.has w = true := by
  rw [has_iff,h,mem_range]
  unfold threadCnt
  split <;> omega

/-- With two workers or more the end of epoch 4 leaves one of the first two behind. -/
theorem second_scan_misses (hn : 2 ≤ n)
    (h : ∀ c t, Reaches n c t → c < uint64Max → ∀ start < n, Persists n c start t) : False := by
  obtain ⟨hdistinct,hleaves⟩ := build_distinct (n := n) (by omega)
  have hready : FirstScan n (build n) := build_first_scan (by omega)
  obtain ⟨fuel,t,log,hend,-,hahead,-⟩ := h _ _ .init (by decide) 0 (by omega)
  obtain ⟨hscanned,hleaves1⟩ := scan_rule 2 (fun _ u => FirstScan n u ∧
    u.entries.map Prod.fst = List.range (threadCnt n))
    (fun i u hu => ⟨(first_scan_persist hu.1 i).1,(persist_leaves 2 i u).trans hu.2⟩)
    ⟨hready,hleaves⟩ hend
  have hd1 : t.Distinct := by rw [Tree.Distinct,hleaves1]; exact nodup_range
  have hfresh : Fresh n t := by
    apply first_scan_fresh hscanned
    intro e he hw
    rw [← leaf_val_eq t hd1 he]
    exact hahead e.1 hw
  obtain ⟨fuel',t',log',hend',-,hahead',-⟩ :=
    h _ _ (.next .init (by decide) (by omega) hend) (by decide) 0 (by omega)
  obtain ⟨hlags,hleaves2⟩ := second_scan hfresh hd1 (by omega)
    (has_of_leaves hleaves1 (by omega)) hend'
  rw [hleaves1] at hleaves2
  have hd2 : t'.Distinct := by rw [Tree.Distinct,hleaves2]; exact nodup_range
  obtain ⟨m,hm⟩ : ∃ m, threadCnt n = m + 2 := by
    refine ⟨threadCnt n - 2,?_⟩
    unfold threadCnt
    split <;> omega
  have hfirst : t'.entries.map Prod.fst = 0 :: 1 :: List.range' 2 m := by
    rw [hleaves2,hm,range_eq_range',range'_succ,range'_succ]
  obtain ⟨e,he,hw,hval⟩ := hlags.worker hfirst (by omega) (by omega)
  have hlate := hahead' e.1 hw
  rw [leaf_val_eq t' hd2 he] at hlate
  simp only [initEpoch] at hlate
  omega

theorem one_worker (ha : a ≤ c - 1) (hv : v < c - 1) (hc : c < uint64Max) :
    onEpochEnd (fuel + 1) c 0 (.node v (.leaf 0 a) (.leaf 1 uint64Max)) =
      some (.node (c - 1) (.leaf 0 c) (.leaf 1 uint64Max),[0]) := by
  have hpad : min (c - 1) uint64Max = c - 1 := by omega
  have hsucc : (c - 1 + 1) % 2 ^ 64 = c := by
    simp only [uint64Max] at hc
    omega
  have hgt : ¬ c ≤ c - 1 := by omega
  have hle : ¬ a > c - 1 := by omega
  simp [-Nat.reducePow,onEpochEnd,Tree.nextThreadToPersist,Tree.leafVal,Tree.has,ha,scan,
    Tree.afterPersistEpoch,hle,propagate,Tree.val,hpad,hv,hsucc,hgt,Tree.climb]

theorem one_worker_reaches (h : Reaches 1 c t) :
    3 ≤ c ∧ ∃ v a, t = .node v (.leaf 0 a) (.leaf 1 uint64Max) ∧ a ≤ c - 1 ∧ v < c - 1 := by
  induction h with
  | init => exact ⟨by decide,0,0,by decide,by decide,by decide⟩
  | @next c t start fuel t' log _ hc hs he ih =>
    obtain ⟨h3,v,a,rfl,ha,hv⟩ := ih
    obtain rfl : start = 0 := by omega
    cases fuel with
    | zero =>
      have hnext : (Tree.node v (.leaf 0 a) (.leaf 1 uint64Max)).nextThreadToPersist (c - 1) 0 =
          some 0 := by
        simp [Tree.nextThreadToPersist,Tree.leafVal,Tree.has,ha]
      rw [onEpochEnd,hnext] at he
      cases he
    | succ =>
      rw [one_worker ha hv hc] at he
      cases he
      exact ⟨by omega,c - 1,c,rfl,by omega,by omega⟩

/-- The ends of epochs persist every worker exactly when there is only one. -/
theorem every_worker_persisted_iff (hn : 1 ≤ n) :
    (∀ c t, Reaches n c t → c < uint64Max → ∀ start < n, Persists n c start t) ↔ n = 1 := by
  constructor
  · intro h
    by_contra hcon
    exact second_scan_misses (by omega) h
  · intro hone c t hr hc start hs
    subst hone
    obtain ⟨h3,v,a,rfl,ha,hv⟩ := one_worker_reaches hr
    obtain rfl : start = 0 := by omega
    refine ⟨1,_,_,one_worker ha hv hc,?_,?_,?_⟩
    · intro w hw _
      simp; omega
    · intro w hw
      obtain rfl : w = 0 := by omega
      simp only [Tree.leafVal,Tree.has]
      simp; omega
    · intro w hw
      simp; omega

theorem every_worker_persisted_one :
    1 ≤ 1 ∧ ∀ c t, Reaches 1 c t → c < uint64Max → ∀ start < 1, Persists 1 c start t :=
  ⟨by decide,(every_worker_persisted_iff (by decide)).mpr rfl⟩

/-- Two workers: the end of epoch 4 persists epoch 3 of thread 0 only. -/
theorem second_worker_skipped :
    ∃ t t', onEpochEnd 3 3 0 (build 2) = some (t,[0,1]) ∧ Reaches 2 4 t ∧
      onEpochEnd 3 4 0 t = some (t',[0]) ∧ t.leafVal 1 = 3 ∧ t'.leafVal 1 = 3 ∧
      ¬ Persists 2 4 0 t := by
  have hfirst : onEpochEnd 3 3 0 (build 2) =
      some (.node 2 (.leaf 0 3) (.leaf 1 3),[0,1]) := by decide
  refine ⟨_,.node 3 (.leaf 0 4) (.leaf 1 3),hfirst,.next .init (by decide) (by decide) hfirst,
    by decide,rfl,rfl,?_⟩
  intro hreach
  obtain ⟨fuel,t',log,hend,-,hahead,-⟩ := hreach
  cases fuel with
  | zero => cases hend
  | succ fuel =>
    cases fuel <;> cases hend <;> exact absurd (hahead 1 (by decide)) (by decide)

end Montage.Mindicator
