import Montage.Library.Chains
import Montage.SOFTHashTable.Bucket
import Montage.SOFTHashTable.Steps

namespace Montage.SOFTHashTable
open Library List

def Pc.result : Pc → Option Result
  | .inserted b => some (.inserted b)
  | .removed _ _ ret => some (.removed ret)
  | .got ret => some (.got ret)
  | _ => none

/-- Thread 0 goes on until its call has returned; the fuel bounds the number of its steps. -/
def finish (cfg : Config) : Nat → State → Option (State × Result)
  | 0, _ => none
  | fuel + 1, s =>
    match (s.pc 0).result with
    | some res => (tick cfg s 0).map fun s' => (s',res)
    | none => (tick cfg s 0).bind (finish cfg fuel)

def perform (cfg : Config) (fuel : Nat) (s : State) (op : Op) : Option (State × Result) :=
  (step cfg s (.call 0 op)).bind (finish cfg fuel)

inductive Ticks (cfg : Config) : Nat → State → State → Prop
  | refl (s : State) : Ticks cfg 0 s s
  | step (running : (s.pc 0).result = none) (next : tick cfg s 0 = some s')
      (rest : Ticks cfg n s' s'') : Ticks cfg (n + 1) s s''

/-- The key of a call: not empty, it fits into the array, and its bytes are below that of the last
node's key. -/
structure ValidKey (cfg : Config) (key : List Nat) : Prop where
  fits : Fits cfg.keySize key
  nonempty : key ≠ []
  ascii : ∀ c ∈ key, c < 127

structure Stored (cfg : Config) (s : State) (n : Nat) (e : List Nat × List Nat) : Prop where
  key : ∃ junk, (s.nodes n).key = fill cfg.keySize e.1 junk
  value : (s.nodes n).value = e.2
  pptr : (s.nodes n).pptr = true
  valid : ValidKey cfg e.1

/-- The nodes of a bucket, linked from the first to the last sentinel, are all inserted and hold the
bindings. -/
structure Holds (cfg : Config) (s : State) (ids : List Nat) (L : Bucket) : Prop where
  chain : Chain (fun n => (s.next n).ref) (some 0) (0 :: (ids ++ [1]))
  state : ∀ n ∈ 0 :: (ids ++ [1]), (s.next n).state = .inserted
  made : ∀ n ∈ 0 :: (ids ++ [1]), n < s.made
  last : ∃ junk, (s.nodes 1).key = fill cfg.keySize [127] junk
  stored : Forall₂ (Stored cfg s) ids L
  sorted : L.Sorted

variable {cfg : Config} {s s' s'' : State} {ids ids1 ids2 : List Nat} {L L1 L2 : Bucket}
  {key : List Nat} {e : List Nat × List Nat} {n m prev curr fuel : Nat} {pc : Pc} {op : Op}

theorem Ticks.trans (h : Ticks cfg n s s') (h' : Ticks cfg m s' s'') :
    Ticks cfg (n + m) s s'' := by
  induction h with
  | refl => simpa using h'
  | @step s s1 s2 n running next _ ih =>
    rw [Nat.add_right_comm]
    exact .step running next (ih h')

theorem Ticks.one (running : (s.pc 0).result = none) (next : tick cfg s 0 = some s') :
    Ticks cfg 1 s s' := .step running next (.refl s')

theorem Ticks.finish (h : Ticks cfg n s s') :
    finish cfg (fuel + n) s = SOFTHashTable.finish cfg fuel s' := by
  induction h with
  | refl => rfl
  | step running next _ ih =>
    rw [← Nat.add_assoc,SOFTHashTable.finish,running]
    simp only [next,Option.bind_some]
    exact ih

theorem goto_goto (s : State) (t : Nat) (pc pc' : Pc) : (s.goto t pc).goto t pc' = s.goto t pc' := by
  simp [State.goto]

theorem compare_stored (h : Stored cfg s n e) (hkey : ValidKey cfg key) :
    ((s.nodes n).compare cfg key = .lt ↔ e.1 < key) ∧
      ((s.nodes n).compare cfg key = .eq ↔ key <+: e.1) := by
  obtain ⟨junk,hjunk⟩ := h.key
  rw [Node.compare,hjunk,Nat.min_eq_right hkey.fits.length]
  exact strncmp_fill hkey.fits h.valid.fits junk

theorem compare_last (h : ∃ junk, (s.nodes 1).key = fill cfg.keySize [127] junk)
    (hkey : ValidKey cfg key) : (s.nodes 1).compare cfg key = .gt := by
  obtain ⟨junk,hjunk⟩ := h
  obtain ⟨c,k,rfl⟩ := exists_cons_of_ne_nil hkey.nonempty
  have hsize : 1 ≤ cfg.keySize := le_trans (by simp) hkey.fits.length
  obtain ⟨rest,hfill,-⟩ := fill_eq (s := [127]) hsize junk
  rw [Node.compare,hjunk,Nat.min_eq_right hkey.fits.length,hfill,length_cons]
  exact strncmp_gt (hkey.ascii c mem_cons_self)

theorem Ticks.completes {res : Result} (h : Ticks cfg n s s') (hres : (s'.pc 0).result = some res)
    (htick : tick cfg s' 0 = some s'') (hfuel : n < fuel) :
    SOFTHashTable.finish cfg fuel s = some (s'',res) := by
  obtain ⟨k,rfl⟩ := Nat.exists_eq_add_of_lt hfuel
  rw [show n + k + 1 = k + 1 + n by omega,h.finish,SOFTHashTable.finish,hres]
  simp only [htick,Option.map_some]

theorem Holds.of_memory (h : Holds cfg s ids L) (hnodes : s'.nodes = s.nodes)
    (hmade : s'.made = s.made) : Holds cfg s' ids L := by
  have hnext : s'.next = s.next := by
    funext n
    rw [State.next,State.next,hnodes]
  refine ⟨by rw [hnext]; exact h.chain,by rw [hnext]; exact h.state,by rw [hmade]; exact h.made,
    by rw [hnodes]; exact h.last,?_,h.sorted⟩
  refine h.stored.imp fun n e hstored => ⟨?_,?_,?_,hstored.valid⟩
  · rw [hnodes]
    exact hstored.key
  · rw [hnodes]
    exact hstored.value
  · rw [hnodes]
    exact hstored.pptr

/-- The place of a search: `prev` is the node before it and `curr` the one after it. -/
structure Spot (ids1 ids2 : List Nat) (prev curr : Nat) : Prop where
  prev : ∃ l, 0 :: ids1 = l ++ [prev]
  curr : ∃ l, ids2 ++ [1] = curr :: l

theorem Holds.next (h : Holds cfg s ids L) (l l' : List Nat) {a b : Nat}
    (hids : 0 :: (ids ++ [1]) = l ++ a :: b :: l') : s.next a = ⟨some b,.inserted⟩ := by
  have hchain := h.chain
  have hstate := h.state
  rw [hids] at hchain hstate
  have href : (s.next a).ref = some b := hchain.split.first
  have hst := hstate a (by simp)
  rw [← href,← hst]

theorem Holds.next_spot (h : Holds cfg s ids L) (hids : ids = ids1 ++ ids2)
    (hspot : Spot ids1 ids2 prev curr) : s.next prev = ⟨some curr,.inserted⟩ := by
  obtain ⟨⟨l,hl⟩,l',hl'⟩ := hspot
  refine h.next l l' ?_
  rw [hids,append_assoc,hl',← cons_append,hl]
  simp

theorem walk_ticks (place : Nat → Nat → Pc) (hrunning : ∀ prev curr, (place prev curr).result = none)
    (hmove : ∀ prev curr next, s.next curr = ⟨some next,.inserted⟩ →
      (s.nodes curr).compare cfg key = .lt →
      tick cfg (s.goto 0 (place prev curr)) 0 = some (s.goto 0 (place curr next)))
    (hkey : ValidKey cfg key) (h : Holds cfg s ids L) (hids : ids = ids1 ++ ids2)
    (hstored1 : Forall₂ (Stored cfg s) ids1 L1)
    (hstored2 : Forall₂ (Stored cfg s) ids2 L2) (hspot : Spot ids1 ids2 prev curr) :
    ∃ n prev' curr' ids1' ids2', ids = ids1' ++ ids2' ∧ Spot ids1' ids2' prev' curr' ∧
      Forall₂ (Stored cfg s) ids1' (L1 ++ L2.before key) ∧
      Forall₂ (Stored cfg s) ids2' (L2.after key) ∧
      Ticks cfg n (s.goto 0 (place prev curr)) (s.goto 0 (place prev' curr')) := by
  induction hstored2 generalizing ids1 L1 prev curr with
  | nil =>
    refine ⟨0,prev,curr,ids1,[],hids,hspot,?_,.nil,.refl _⟩
    rw [Bucket.before,takeWhile_nil,append_nil]
    exact hstored1
  | @cons c e ids2 L2 hc hrest ih =>
    by_cases hlt : e.1 < key
    · -- the search goes past this node
      obtain ⟨l,hl⟩ := hspot.curr
      cases hl
      obtain ⟨d,l',hd⟩ : ∃ d l', ids2 ++ [1] = d :: l' := exists_cons_of_ne_nil (by simp)
      have hspot' : Spot (ids1 ++ [c]) ids2 c d := ⟨⟨0 :: ids1,rfl⟩,l',hd⟩
      have hids' : ids = (ids1 ++ [c]) ++ ids2 := by rw [hids,append_assoc]; rfl
      obtain ⟨n,prev',curr',ids1',ids2',hids1,hspot1,hst1,hst2,hticks⟩ :=
        ih hids' (rel_append hstored1 (.cons hc .nil)) hspot'
      refine ⟨1 + n,prev',curr',ids1',ids2',hids1,hspot1,?_,?_,?_⟩
      · rw [Bucket.before,takeWhile_cons_of_pos (by simpa using hlt),append_cons]
        exact hst1
      · rw [Bucket.after,dropWhile_cons_of_pos (by simpa using hlt)]
        exact hst2
      · refine (Ticks.one ?_ ?_).trans hticks
        · rw [goto_pc]
          exact hrunning prev c
        · exact hmove prev c d (h.next_spot hids' hspot') ((compare_stored hc hkey).1.mpr hlt)
    · refine ⟨0,prev,curr,ids1,c :: ids2,hids,hspot,?_,?_,.refl _⟩
      · rw [Bucket.before,takeWhile_cons_of_neg (by simpa using hlt),append_nil]
        exact hstored1
      · rw [Bucket.after,dropWhile_cons_of_neg (by simpa using hlt)]
        exact .cons hc hrest

end Montage.SOFTHashTable
