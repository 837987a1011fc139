import Montage.Mindicator.Change

namespace Montage.Mindicator.Marked
open Library Option
open Concurrent (Inner)

def findNextThreadLe (n val : Nat) (m : Memory) (p : Way) : Option Nat :=
  ((snapshot n m).sub p).bind fun t => t.findNextThreadLe val

def lookAside (n val : Nat) (m : Memory) (side : Bool) (p : Way) : Option Nat :=
  if (m p).v < val then findNextThreadLe n val m ((!side) :: p) else none

/-- The climb from node `p` to the root. In a round `from`, here `side`, is still the `seq` of a node
two levels below, as the paths do not end in the leaves. -/
def climb (n val : Nat) (m : Memory) (side : Bool) : Way → Option Nat
  | [] => lookAside n val m side []
  | seq :: p =>
    match lookAside n val m side (seq :: p) with
    | some t => some t
    | none => climb n val m seq p

/-- `next_thread_to_persist(val, curr)`. It begins with the last but one node of the path. -/
def nextThreadToPersist (n val curr : Nat) (m : Memory) : Option Nat :=
  (leafOf n curr).bind fun leaf =>
    if (m leaf).v ≤ val then some curr
    else
      match leaf with
      | seq :: _ :: p => climb n val m seq p
      | _ => none

structure Tracker where
  mem : Memory
  hasWriteOp : Nat → Nat → Nat

/-- `compare_exchange_strong` on a flag. -/
def Tracker.casFlag (s : Tracker) (e tid old new : Nat) : Tracker :=
  let flags := s.hasWriteOp (e % epochWindow)
  if flags tid = old then
    ⟨s.mem,Function.update s.hasWriteOp (e % epochWindow) (Function.update flags tid new)⟩
  else s

def Tracker.firstWriteOnNewEpoch (s : Tracker) (e tid : Nat) : Tracker := s.casFlag e tid 0 1

def Tracker.afterPersistEpoch (n fuel : Nat) (s : Tracker) (e tid : Nat) : Option Tracker :=
  let next := (e + 1) % 2 ^ 64
  let val := if s.hasWriteOp (next % epochWindow) tid > 0 then next else uint64Max
  (change n fuel val tid s.mem).map fun r => Tracker.casFlag { s with mem := r.2 } e tid 1 0

/-- The loop of `on_epoch_end`. Returns the tracker and the threads for which
`persist_epoch_local` has been called. -/
def persistLoop (n val : Nat) : Nat → Option Nat → Tracker → Option (Tracker × List Nat)
  | _, none, s => some (s,[])
  | 0, some _, _ => none
  | fuel + 1, some t, s =>
    (s.afterPersistEpoch n 1 val t).bind fun s' =>
      (persistLoop n val fuel (nextThreadToPersist n val t s'.mem) s').map fun r => (r.1,t :: r.2)

def onEpochEnd (n fuel c start : Nat) (s : Tracker) : Option (Tracker × List Nat) :=
  persistLoop n (c - 1) fuel (nextThreadToPersist n (c - 1) start s.mem) s

namespace Writers

/-- The tracker, the global epoch, and the epoch and the threads for which the last
`on_epoch_end` has called `persist_epoch_local`. -/
structure State where
  tracker : Tracker
  epoch : Nat
  persisted : List (Nat × Nat)

def init : State := ⟨⟨Marked.init,fun _ _ => 0⟩,initEpoch,[]⟩

inductive Act where
  /-- The first operation of a thread in the current epoch. -/
  | write (t : Nat)
  /-- The advancer ends the current epoch, in at most so many rounds. -/
  | endEpoch (start rounds : Nat)

def step (n : Nat) (s : State) : Act → Option State
  | .write t =>
    if t < n then some { s with tracker := s.tracker.firstWriteOnNewEpoch s.epoch t } else none
  | .endEpoch start rounds =>
    if start < n ∧ s.epoch < uint64Max then
      (onEpochEnd n rounds s.epoch start s.tracker).map fun r =>
        ⟨r.1,s.epoch + 1,r.2.map fun t => (s.epoch - 1,t)⟩
    else none

def Writes (m : Move State Act) (e t : Nat) : Prop := m.pre.epoch = e ∧ m.act = .write t

def Ends (m : Move State Act) (c : Nat) : Prop :=
  m.pre.epoch = c ∧ ∃ start rounds, m.act = .endEpoch start rounds

end Writers

variable {n val tid curr : Nat} {m : Memory} {p q leaf : Way}

theorem climb_none (h : ∀ p, val ≤ (m p).v) (side : Bool) (p : Way) :
    climb n val m side p = none := by
  have hlook : ∀ side p, lookAside n val m side p = none := by
    intro side p
    exact if_neg (not_lt.mpr (h p))
  induction p generalizing side with
  | nil => exact hlook side []
  | cons seq p ih =>
    rw [climb,hlook]
    exact ih seq

/-- A node is searched only if it is below `val`. -/
theorem next_thread_none (h : ∀ p, val ≤ (m p).v)
    (hcurr : ∀ leaf, leafOf n curr = some leaf → val < (m leaf).v) :
    nextThreadToPersist n val curr m = none := by
  cases hleaf : leafOf n curr with
  | none => simp [nextThreadToPersist,hleaf]
  | some leaf =>
    rw [nextThreadToPersist,hleaf,bind_some,if_neg (not_le.mpr (hcurr leaf hleaf))]
    split
    next => exact climb_none h _ _
    next => rfl

theorem leaf_way_entry {t : Tree} (vals : Way → Nat) (h : t.leafWay tid p = some q) :
    (tid,vals q) ∈ (t.fill vals p).entries := by
  induction t generalizing p with
  | null => cases h
  | leaf =>
    simp only [Tree.leafWay] at h
    split at h
    next hi =>
      cases h
      simp [Tree.fill,Tree.entries,hi]
    next => cases h
  | node v l r ihl ihr =>
    simp only [Tree.leafWay] at h
    rcases or_eq_some_iff.mp h with h | ⟨-,h⟩
    · exact List.mem_append_left _ (ihl h)
    · exact List.mem_append_right _ (ihr h)

/-- The minima above a leaf of `val` are not below `val` if nothing beside them is. -/
theorem Exact.above {tree : Tree} (h : Exact tree m) (hpath : ∀ q ∈ path leaf, Inner tree q)
    (hleaf : (m leaf).v = val) (hoff : ∀ q, ¬q <:+ leaf → val ≤ (m q).v) :
    ∀ q, val ≤ (m q).v := by
  have hon : ∀ k q, q <:+ leaf → leaf.length ≤ q.length + k → val ≤ (m q).v := by
    intro k
    induction k with
    | zero =>
      intro q hq hlength
      rw [hq.eq_of_length_le hlength,hleaf]
    | succ k ih =>
      intro q hq hlength
      by_cases heq : q = leaf
      · rw [heq,hleaf]
      · have hmem := mem_path.mpr ⟨hq,heq⟩
        obtain ⟨b,hb,hother⟩ := suffix_child hmem
        have hleast := (h q (hpath q hmem)).least
        have hchild := ih (b :: q) hb (by simp only [List.length_cons]; omega)
        have hsibling := hoff _ hother
        cases b with
        | false =>
          simp only [Bool.not_false] at hsibling
          omega
        | true =>
          simp only [Bool.not_true] at hsibling
          omega
  intro q
  by_cases hq : q <:+ leaf
  · exact hon leaf.length q hq (by omega)
  · exact hoff q hq

/-- With two or more threads: when thread 1 has arrived with `val`, a search from thread 0 does
not find it. -/
theorem thread_overlooked (hn : 2 ≤ n) (hval : val < uint64Max) :
    ∃ m, Reaches n m ∧ nextThreadToPersist n val 0 m = none ∧ (1,val) ∈ (snapshot n m).entries := by
  have hpos : 0 < n := by omega
  obtain ⟨leaf,hleaf⟩ : ∃ leaf, leafOf n 1 = some leaf := leaf_of_some hpos (by omega)
  obtain ⟨visited,m,hchange,hexact,-,hstored,hframe⟩ :=
    change_spec 0 val hpos (init_exact _) hleaf
  have hoff : ∀ q ∉ leaf :: path leaf, (m q).v = uint64Max := by
    intro q hq
    rw [hframe q hq]
    rfl
  obtain ⟨b,p,rfl,hp,-⟩ := leaf_of_spec hpos hleaf
  have hinner : ∀ q ∈ path (b :: p), Inner (build n) q := inner_path hp
  refine ⟨m,Reaches.init.change (by omega) (by omega) hchange,next_thread_none ?_ ?_,?_⟩
  · refine hexact.above hinner hstored ?_
    intro q hq
    rw [hoff q]
    · omega
    · intro hmem
      rcases List.mem_cons.mp hmem with rfl | hmem
      · exact hq (List.suffix_refl _)
      · exact hq (mem_path.mp hmem).1
  · intro leaf0 hleaf0
    obtain ⟨-,-,-,-,hnot⟩ := leaf_of_spec hpos hleaf0
    rw [hoff leaf0]
    · exact hval
    · intro hmem
      rcases List.mem_cons.mp hmem with rfl | hmem
      · obtain ⟨v,hv⟩ := leaf_way_leaf rfl hleaf
        obtain ⟨w,hw⟩ := leaf_way_leaf rfl hleaf0
        cases hv.symm.trans hw
      · exact hnot (hinner _ hmem)
  · rw [← hstored]
    exact leaf_way_entry (fun q => (m q).v) hleaf

/-- The second leaf of a tree for one thread is never used. -/
theorem Reaches.unused (h : Reaches 1 m) : (m [true]).v = uint64Max := by
  induction h with
  | init => rfl
  | change h ht _ hc ih =>
    have hleaf : leafOf 1 0 = some [false] := by decide
    cases Nat.lt_one_iff.mp ht
    rw [(change_frame (by decide) (h.exact (by decide)) hleaf hc).2 [true] (by decide),ih]

/-- In all quiescent states the answer that there is no thread is right exactly if there is but one
thread. -/
theorem right_iff_one (hn : 0 < n) (hval : val < uint64Max) :
    (∀ m curr, Reaches n m → curr < n → nextThreadToPersist n val curr m = none →
      ∀ e ∈ (snapshot n m).entries, val < e.2) ↔ n = 1 := by
  constructor
  · intro hall
    by_contra hne
    obtain ⟨m,hm,hnone,hmem⟩ := thread_overlooked (n := n) (by omega) hval
    exact absurd (hall m 0 hm hn hnone _ hmem) (lt_irrefl val)
  · rintro rfl m curr hm hcurr hnone
    have hleaf : leafOf 1 0 = some [false] := by decide
    cases Nat.lt_one_iff.mp hcurr
    rw [nextThreadToPersist,hleaf,bind_some] at hnone
    split at hnone
    next => cases hnone
    next hgt =>
      have hentries : (snapshot 1 m).entries = [(0,(m [false]).v),(1,(m [true]).v)] := rfl
      simp only [hentries,hm.unused,List.forall_mem_cons]
      exact ⟨by omega,hval,by simp⟩

namespace Writers

/-- No leaf is ever anything but `UINT64_MAX`. -/
def Idle (s : State) : Prop := ∀ p, (s.tracker.mem p).v = uint64Max

theorem cas_flag_mem (s : Tracker) (e tid old new : Nat) : (s.casFlag e tid old new).mem = s.mem := by
  simp only [Tracker.casFlag]
  split <;> rfl

theorem Idle.next (n val curr : Nat) (h : Idle s) (hval : val < uint64Max) :
    nextThreadToPersist n val curr s.tracker.mem = none := by
  refine next_thread_none ?_ ?_
  · intro p
    rw [h p]
    omega
  · intro leaf _
    rw [h leaf]
    exact hval

theorem Idle.end_epoch (h : Idle s) (hs : step n s (.endEpoch start rounds) = some s') :
    Idle s' ∧ s'.persisted = [] := by
  simp only [step] at hs
  split at hs
  next =>
    have hnext := h.next n (s.epoch - 1) start (by omega)
    obtain ⟨r,hr,rfl⟩ := map_eq_some_iff.mp hs
    rw [onEpochEnd,hnext] at hr
    cases rounds <;> cases hr <;> exact ⟨h,rfl⟩
  next => cases hs

theorem Idle.step {a : Act} (h : Idle s) (hs : step n s a = some s') : Idle s' := by
  cases a with
  | write =>
    simp only [Writers.step] at hs
    split at hs <;> cases hs
    intro p
    rw [Tracker.firstWriteOnNewEpoch,cas_flag_mem]
    exact h p
  | endEpoch => exact (h.end_epoch hs).1

/-- Every thread that has written in an epoch `e` is persisted at the end of epoch `e + 1` exactly
if no thread has written in an epoch `e` such that epoch `e + 1` has ended; and in general the
answer that there is no thread to persist is right in all quiescent states exactly if there is but
one thread. -/
theorem writers_persisted_iff (hn : 0 < n) :
    (∀ ms s, Run (step n) (fun _ _ => True) init ms s →
      ((∀ w ∈ ms, ∀ d ∈ ms, ∀ e t, Writes w e t → Ends d (e + 1) → (e,t) ∈ d.post.persisted) ↔
        ∀ w ∈ ms, ∀ d ∈ ms, ∀ e t, Writes w e t → ¬Ends d (e + 1))) ∧
    ∀ val, val < uint64Max →
      ((∀ m curr, Reaches n m → curr < n → nextThreadToPersist n val curr m = none →
        ∀ e ∈ (snapshot n m).entries, val < e.2) ↔ n = 1) := by
  refine ⟨?_,fun val hval => right_iff_one hn hval⟩
  intro ms s run
  constructor
  · intro hall w hw d hd e t hwrites hends
    have hmem := hall w hw d hd e t hwrites hends
    obtain ⟨-,start,rounds,hact⟩ := hends
    obtain ⟨hidle,-,hs⟩ := run.each Idle (fun _ => rfl) (fun _ _ _ h _ hs => h.step hs) d hd
    rw [hact] at hs
    rw [(hidle.end_epoch hs).2] at hmem
    cases hmem
  · intro hnone w hw d hd e t hwrites hends
    exact absurd hends (hnone w hw d hd e t hwrites)

/-- One worker, which does not write; and a search after it has arrived with 7. -/
theorem writers_persisted_iff_alone :
    (∃ ms s, Run (step 1) (fun _ _ => True) init ms s ∧
      ms.map Move.act = [.endEpoch 0 0,.endEpoch 0 0] ∧
      ∀ w ∈ ms, ∀ d ∈ ms, ∀ e t, Writes w e t → Ends d (e + 1) → (e,t) ∈ d.post.persisted) ∧
    ∃ m, Reaches 1 m ∧ nextThreadToPersist 1 5 0 m = none ∧ nextThreadToPersist 1 7 0 m = some 0 ∧
      ∀ e ∈ (snapshot 1 m).entries, 5 < e.2 := by
  refine ⟨?_,?_⟩
  · obtain ⟨s,hplay,-⟩ : ∃ s, play (step 1) init [.endEpoch 0 0,.endEpoch 0 0] = some s ∧
        s.epoch = 5 := map_eq_some_iff.mp (by decide +kernel)
    obtain ⟨ms,run,hacts⟩ := Run.performed (fun _ _ => True) hplay fun _ _ _ => trivial
    refine ⟨ms,s,run,hacts,((writers_persisted_iff (by decide)).1 _ _ run).mpr ?_⟩
    intro w hw d hd e t hwrites
    have hact := List.mem_map_of_mem (f := Move.act) hw
    rw [hacts,hwrites.2] at hact
    simp at hact
  · obtain ⟨m,hchanges,hend⟩ : ∃ m, changes 1 [(7,0)] Marked.init = some m ∧
        decide (nextThreadToPersist 1 5 0 m = none ∧ nextThreadToPersist 1 7 0 m = some 0) = true :=
      map_eq_some_iff.mp (by decide +kernel)
    obtain ⟨hnone,hsome⟩ := of_decide_eq_true hend
    have hreaches := Reaches.init.changes (by decide) hchanges
    exact ⟨m,hreaches,hnone,hsome,((writers_persisted_iff (by decide)).2 5 (by decide)).mpr rfl m 0
      hreaches (by decide) hnone⟩

/-- Two workers: thread 0 writes in epoch 3 and is not persisted at the end of epoch 4. And when
the leaf of thread 1 is at 5, a search from thread 0 does not find it. -/
theorem writer_skipped :
    (∃ ms s, Run (step 2) (fun _ _ => True) init ms s ∧
      ms.map Move.act = [.write 0,.endEpoch 0 0,.endEpoch 0 0] ∧
      ∃ w ∈ ms, ∃ d ∈ ms, Writes w 3 0 ∧ Ends d 4 ∧ (3,0) ∉ d.post.persisted) ∧
    ∃ m, Reaches 2 m ∧ nextThreadToPersist 2 5 0 m = none ∧ (1,5) ∈ (snapshot 2 m).entries := by
  refine ⟨?_,?_⟩
  · obtain ⟨s1,hwrite⟩ : ∃ s1, step 2 init (.write 0) = some s1 := ⟨_,rfl⟩
    obtain ⟨s2,hend2,hepoch⟩ : ∃ s2, step 2 s1 (.endEpoch 0 0) = some s2 ∧ s2.epoch = 4 := by
      cases hwrite
      exact map_eq_some_iff.mp (by decide +kernel)
    obtain ⟨s3,hend3,hpersisted⟩ : ∃ s3, step 2 s2 (.endEpoch 0 0) = some s3 ∧ s3.persisted = [] := by
      cases hwrite
      cases hend2
      exact map_eq_some_iff.mp (by decide +kernel)
    refine ⟨_,s3,((Run.nil.snoc trivial hwrite).snoc trivial hend2).snoc trivial hend3,rfl,
      ⟨init,.write 0,s1⟩,by simp,⟨s2,.endEpoch 0 0,s3⟩,by simp,⟨rfl,rfl⟩,⟨hepoch,0,0,rfl⟩,?_⟩
    simp [hpersisted]
  · exact thread_overlooked (by decide) (by decide)

end Writers

end Montage.Mindicator.Marked
