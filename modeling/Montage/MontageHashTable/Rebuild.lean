import Montage.Library.Chains
import Montage.MontageHashTable.Lists
import Mathlib.Algebra.Order.BigOperators.Group.Finset

namespace Montage.MontageHashTable.Rebuild
open Library Function List Option

/-- A node with a `next` pointer: the head of a bucket, or the node of the payload
`payloadVector[i]`. -/
inductive Cell where
  | head (b : Nat)
  | node (i : Nat)
  deriving DecidableEq

/-- Where a recovery thread is in its loop, at the payload `payloadVector[i]`. -/
inductive Pc where
  | fetch (i : Nat)
  -- from here on it holds the lock of the bucket
  | scan (i : Nat) (prev : Cell) (curr : Option Nat)
  | splice (i : Nat) (prev : Cell)
  | link (i : Nat) (prev : Cell)
  | finished
  deriving DecidableEq

/-- The `next` pointers, the locks of the buckets, the threads, and whether `errexit` has been
called. -/
structure State where
  next : Cell → Option Nat
  lock : Nat → Option Nat
  pc : Nat → Pc
  exited : Bool

namespace State

def goto (s : State) (t : Nat) (pc : Pc) : State := { s with pc := update s.pc t pc }

def store (s : State) (c : Cell) (p : Option Nat) : State :=
  { s with next := update s.next c p }

def hold (s : State) (b : Nat) (owner : Option Nat) : State :=
  { s with lock := update s.lock b owner }

end State

variable {K V : Type} [LinearOrder K] (hash : K → Nat) (idxSize recThd size : Nat)
  (payload : Nat → Payload K V)

def init : State where
  next _ := none
  lock _ := none
  pc t := if t < recThd then .fetch t else .finished
  exited := false

def bucket (i : Nat) : Nat := hash (payload i).key % idxSize

def step (s : State) (t : Nat) : Option State :=
  if s.exited then none
  else
    match s.pc t with
    | .fetch i =>
      if i < size then
        let b := bucket hash idxSize payload i
        if s.lock b = none then
          some ((s.hold b (some t)).goto t (.scan i (.head b) (s.next (.head b))))
        else none
      else some (s.goto t .finished)
    | .scan i prev none => some (s.goto t (.link i prev))
    | .scan i prev (some c) =>
      if (payload c).key = (payload i).key then some { s with exited := true }
      else if (payload i).key < (payload c).key then
        some ((s.store (.node i) (some c)).goto t (.splice i prev))
      else some (s.goto t (.scan i (.node c) (s.next (.node c))))
    | .splice i prev => some ((s.store prev (some i)).goto t (.link i prev))
    -- the predecessor is linked, again if the loop was left in the middle
    | .link i prev =>
      some (((s.store prev (some i)).hold (bucket hash idxSize payload i) none).goto t
        (.fetch (i + recThd)))
    | .finished => none

def State.returned (s : State) : Prop := ∀ t < recThd, s.pc t = .finished

def walk (next : Cell → Option Nat) (key : K) : Nat → Option Nat → Option (Option V)
  | _, none => some none
  | 0, some _ => none
  | fuel + 1, some c =>
    if (payload c).key = key then some (some (payload c).val)
    else walk next key fuel (next (.node c))

def get (fuel : Nat) (s : State) (key : K) : Option (Option V) :=
  walk payload s.next key fuel (s.next (.head (hash key % idxSize)))

def State.succ (s : State) (c : Cell) : Option Cell := (s.next c).map .node

abbrev Lists := Nat → List Nat

def cells (L : Lists) (b : Nat) : List Cell := .head b :: (L b).map .node

/-- What the worker that is at `prev` in the list of a bucket, with payload `i`, has passed and has
still before it. -/
structure At (L : Lists) (i : Nat) (prev : Cell) (after : List Nat) (before : List Nat) : Prop where
  list : L (bucket hash idxSize payload i) = before ++ after
  prev : ∃ front, front ++ [prev] = .head (bucket hash idxSize payload i) :: before.map .node
  less : ∀ j ∈ before, (payload j).key < (payload i).key

def Pc.inside : Pc → Option Nat
  | .scan i _ _ | .splice i _ | .link i _ => some i
  | .fetch _ | .finished => none

def Pc.passed (size : Nat) : Pc → Nat
  | .fetch i | .scan i _ _ | .splice i _ | .link i _ => i
  | .finished => size

def Pc.Inv (L : Lists) (next : Cell → Option Nat) : Pc → Prop
  | .fetch _ | .finished => True
  | .scan i prev curr => i < size ∧ i ∉ L (bucket hash idxSize payload i) ∧
      ∃ before after, At hash idxSize payload L i prev after before ∧ curr = after.head?
  | .splice i prev => i < size ∧ i ∉ L (bucket hash idxSize payload i) ∧ ∃ before c after,
      At hash idxSize payload L i prev (c :: after) before ∧ next (.node i) = some c ∧
        (payload i).key < (payload c).key
  | .link i prev => i < size ∧
      (i ∉ L (bucket hash idxSize payload i) ∧ next (.node i) = none ∧
          (∃ before, At hash idxSize payload L i prev [] before) ∨
        ∃ before after, At hash idxSize payload L i prev (i :: after) before)

structure Table (L : Lists) (next : Cell → Option Nat) : Prop where
  chain : ∀ b, Chain (fun c => (next c).map Cell.node) (some (.head b)) (cells L b)
  sorted : ∀ b, (L b).Pairwise fun i j => (payload i).key < (payload j).key
  members : ∀ b, ∀ i ∈ L b, i < size ∧ bucket hash idxSize payload i = b

structure Inv (L : Lists) (s : State) : Prop where
  table : Table hash idxSize size payload L s.next
  running : s.exited = false
  pc : ∀ t, (s.pc t).Inv hash idxSize size payload L s.next
  lock : ∀ b t, s.lock b = some t ↔
    (s.pc t).inside.map (bucket hash idxSize payload) = some b
  own : ∀ t i, (s.pc t).inside = some i ∨ s.pc t = .fetch i → t < recThd ∧ i % recThd = t
  inserted : ∀ t < recThd, ∀ i < size, i % recThd = t → i < (s.pc t).passed size →
    i ∈ L (bucket hash idxSize payload i)
  pending : ∀ t < recThd, ∀ i, i % recThd = t → (s.pc t).passed size ≤ i →
    i ∈ L (bucket hash idxSize payload i) → ∃ prev, s.pc t = .link i prev
  fresh : ∀ i, i ∉ L (bucket hash idxSize payload i) → (∀ t prev, s.pc t ≠ .splice i prev) →
    s.next (.node i) = none

variable {hash idxSize recThd size payload} {L : Lists} {s s' : State} {t i : Nat} {prev : Cell}
  {before after : List Nat} {next : Cell → Option Nat}

section
variable (hat : At hash idxSize payload L i prev after before)
include hat

theorem At.split : ∃ front,
    cells L (bucket hash idxSize payload i) = front ++ prev :: after.map .node ∧
      front ++ [prev] = .head (bucket hash idxSize payload i) :: before.map .node := by
  obtain ⟨front,hfront⟩ := hat.prev
  refine ⟨front,?_,hfront⟩
  rw [cells,hat.list,map_append,← cons_append,← hfront,append_assoc]
  rfl

theorem At.prev_cases :
    prev = .head (bucket hash idxSize payload i) ∨ ∃ j ∈ before, prev = .node j := by
  obtain ⟨front,hfront⟩ := hat.prev
  have hmem : prev ∈ Cell.head (bucket hash idxSize payload i) :: before.map .node := by
    rw [← hfront]
    simp
  rcases mem_cons.mp hmem with hp | hp
  · exact .inl hp
  · obtain ⟨j,hj,rfl⟩ := mem_map.mp hp
    exact .inr ⟨j,hj,rfl⟩

theorem At.ne_prev : prev ≠ .node i := by
  rcases hat.prev_cases with rfl | ⟨j,hj,rfl⟩
  · simp
  · intro he
    cases he
    exact absurd (hat.less i hj) (lt_irrefl _)

theorem At.congr {L' : Lists}
    (hL : L' (bucket hash idxSize payload i) = L (bucket hash idxSize payload i)) :
    At hash idxSize payload L' i prev after before :=
  ⟨hL.trans hat.list,hat.prev,hat.less⟩

variable (h : Table hash idxSize size payload L next)
include h

theorem Table.next_prev : next prev = after.head? := by
  obtain ⟨front,hcells,-⟩ := hat.split
  have hchain := h.chain (bucket hash idxSize payload i)
  rw [hcells] at hchain
  have hfirst := hchain.split.first
  rw [head?_map] at hfirst
  exact map_injective (fun _ _ h => Cell.node.inj h) hfirst

theorem Table.prev_home {b : Nat} (hp : prev ∈ cells L b) : b = bucket hash idxSize payload i := by
  rcases hat.prev_cases with rfl | ⟨j,hj,rfl⟩
  · simpa [cells,eq_comm] using hp
  · have hjb : j ∈ L b := by simpa [cells] using hp
    have hji : j ∈ L (bucket hash idxSize payload i) := by
      rw [hat.list]
      exact mem_append_left _ hj
    exact (h.members b j hjb).2.symm.trans (h.members _ j hji).2

theorem Table.insert (hi : i < size) (hnew : next (.node i) = next prev)
    (hafter : ∀ j ∈ after, (payload i).key < (payload j).key) :
    Table hash idxSize size payload
      (update L (bucket hash idxSize payload i) (before ++ i :: after))
      (update next prev (some i)) := by
  obtain ⟨front,hcells,hfront⟩ := hat.split
  refine ⟨?_,?_,?_⟩
  · intro b
    have hchain := h.chain b
    by_cases hb : b = bucket hash idxSize payload i
    · subst hb
      rw [hcells] at hchain
      have hlink : Chain (fun c => (update next prev (some i) c).map Cell.node)
          (some (.head (bucket hash idxSize payload i)))
          (front ++ prev :: .node i :: after.map .node) := by
        refine hchain.insert_after (by simp) ?_ ?_
        · simp [update_of_ne hat.ne_prev.symm,hnew]
        · intro c hc
          rw [update_of_ne (hchain.others c hc)]
      have hlist : cells (update L (bucket hash idxSize payload i) (before ++ i :: after))
          (bucket hash idxSize payload i) = front ++ prev :: .node i :: after.map .node := by
        rw [cells,update_self,map_append,← cons_append,← hfront]
        simp
      rwa [hlist]
    · have hlist : cells (update L (bucket hash idxSize payload i) (before ++ i :: after)) b =
          cells L b := by
        rw [cells,cells,update_of_ne hb]
      rw [hlist]
      refine hchain.congr ?_
      intro c hc
      rw [update_of_ne]
      rintro rfl
      exact hb (h.prev_home hat hc)
  · intro b
    rw [update_apply]
    split
    next =>
      have hsorted := h.sorted (bucket hash idxSize payload i)
      rw [hat.list] at hsorted
      exact Sorted.insert hsorted hat.less hafter
    next => exact h.sorted b
  · intro b j hj
    rw [update_apply] at hj
    split at hj
    next hb =>
      have hold : j ∈ before ++ after → j < size ∧ bucket hash idxSize payload j = b := by
        intro hj
        rw [hb]
        exact h.members _ j (by rwa [hat.list])
      simp only [mem_append,mem_cons] at hj
      rcases hj with hj | rfl | hj
      · exact hold (mem_append_left _ hj)
      · exact ⟨hi,hb.symm⟩
      · exact hold (mem_append_right _ hj)
    next => exact h.members b j hj

end

theorem Table.store_new {p : Option Nat} (h : Table hash idxSize size payload L next)
    (hout : i ∉ L (bucket hash idxSize payload i)) :
    Table hash idxSize size payload L (update next (.node i) p) := by
  refine ⟨?_,h.sorted,h.members⟩
  intro b
  refine (h.chain b).congr ?_
  intro c hc
  rw [update_of_ne]
  rintro rfl
  have hi : i ∈ L b := by simpa [cells] using hc
  rw [(h.members b i hi).2] at hout
  exact hout hi

theorem Pc.Inv.frame {L' : Lists} {next' : Cell → Option Nat} {pc : Pc}
    (h : pc.Inv hash idxSize size payload L next)
    (hL : ∀ j, pc.inside = some j →
      L' (bucket hash idxSize payload j) = L (bucket hash idxSize payload j))
    (hnext : ∀ j, pc.inside = some j → j ∉ L (bucket hash idxSize payload j) →
      next' (.node j) = next (.node j)) : pc.Inv hash idxSize size payload L' next' := by
  cases pc with
  | fetch i | finished => trivial
  | scan i =>
    obtain ⟨hi,hout,before,after,hat,hcurr⟩ := h
    exact ⟨hi,by rwa [hL i rfl],before,after,hat.congr (hL i rfl),hcurr⟩
  | splice i =>
    obtain ⟨hi,hout,before,c,after,hat,hnew,hlt⟩ := h
    exact ⟨hi,by rwa [hL i rfl],before,c,after,hat.congr (hL i rfl),by rw [hnext i rfl hout,hnew],hlt⟩
  | link i =>
    obtain ⟨hi,⟨hout,hnew,before,hat⟩ | ⟨before,after,hat⟩⟩ := h
    · exact ⟨hi,.inl ⟨by rwa [hL i rfl],by rw [hnext i rfl hout,hnew],before,hat.congr (hL i rfl)⟩⟩
    · exact ⟨hi,.inr ⟨before,after,hat.congr (hL i rfl)⟩⟩

theorem Pc.inside_passed {pc : Pc} (h : pc.inside = some i) : pc.passed size = i := by
  cases pc with
  | fetch | finished => cases h
  | scan | splice | link =>
    cases h
    rfl

variable {L' : Lists} {pc : Pc}

theorem Pc.Inv.linked (h : pc.Inv hash idxSize size payload L next) (hin : pc.inside = some i)
    (hi : i ∈ L (bucket hash idxSize payload i)) : ∃ prev, pc = .link i prev := by
  cases pc with
  | fetch | finished => cases hin
  | scan | splice =>
    cases hin
    exact absurd hi h.2.1
  | link j prev =>
    cases hin
    exact ⟨prev,rfl⟩

theorem goto_hold_goto (s : State) (t b : Nat) (owner : Option Nat) (pc pc' : Pc) :
    ((s.goto t pc).hold b owner).goto t pc' = (s.hold b owner).goto t pc' := by
  simp [State.goto,State.hold]

theorem init_inv : Inv hash idxSize recThd size payload (fun _ => []) (init recThd) := by
  have hpc : ∀ t, (init recThd).pc t = .fetch t ∧ t < recThd ∨
      (init recThd).pc t = .finished ∧ recThd ≤ t := by
    intro t
    simp only [init]
    split
    next ht => exact .inl ⟨rfl,ht⟩
    next ht => exact .inr ⟨rfl,not_lt.mp ht⟩
  refine ⟨⟨fun b => .cons _ .nil,fun _ => .nil,by simp⟩,rfl,?_,?_,?_,?_,?_,fun _ _ _ => rfl⟩
  · intro t
    rcases hpc t with ⟨ht,-⟩ | ⟨ht,-⟩ <;> rw [ht] <;> trivial
  · intro b t
    rcases hpc t with ⟨ht,-⟩ | ⟨ht,-⟩ <;> rw [ht] <;> simp [init,Pc.inside]
  · intro t i hi
    rcases hpc t with ⟨ht,hlt⟩ | ⟨ht,-⟩
    · rw [ht] at hi
      simp only [Pc.inside,Pc.fetch.injEq,reduceCtorEq,false_or] at hi
      rw [← hi]
      exact ⟨hlt,Nat.mod_eq_of_lt hlt⟩
    · rw [ht] at hi
      simp [Pc.inside] at hi
  · intro t ht i _ hit hlt
    rcases hpc t with ⟨ht',-⟩ | ⟨-,hge⟩
    · rw [ht'] at hlt
      simp only [Pc.passed] at hlt
      rw [Nat.mod_eq_of_lt (by omega)] at hit
      omega
    · omega
  · intro t _ i _ _ hi
    cases hi

def rank (size : Nat) (payload : Nat → Payload K V) : Cell → Nat
  | .head _ => size
  | .node c => ((Finset.range size).filter fun j => (payload c).key < (payload j).key).card

def Pc.work (size : Nat) (payload : Nat → Payload K V) : Pc → Nat
  | .fetch i => (size - i) * (size + 4) + 1
  | .scan i prev _ => (size - i - 1) * (size + 4) + 4 + rank size payload prev
  | .splice i _ => (size - i - 1) * (size + 4) + 3
  | .link i _ => (size - i - 1) * (size + 4) + 2
  | .finished => 0

theorem rank_decreases {c : Nat} (hc : c < size)
    (hprev : ∀ j, prev = .node j → (payload j).key < (payload c).key) :
    rank size payload (.node c) < rank size payload prev := by
  cases prev with
  | head =>
    refine (Finset.card_lt_card ?_).trans_eq (Finset.card_range size)
    refine Finset.filter_ssubset.mpr ⟨c,Finset.mem_range.mpr hc,lt_irrefl _⟩
  | node j =>
    refine Finset.card_lt_card ?_
    refine (Finset.ssubset_iff_of_subset ?_).mpr ⟨c,?_,?_⟩
    · intro x hx
      obtain ⟨hx,hlt⟩ := Finset.mem_filter.mp hx
      exact Finset.mem_filter.mpr ⟨hx,(hprev j rfl).trans hlt⟩
    · exact Finset.mem_filter.mpr ⟨Finset.mem_range.mpr hc,hprev j rfl⟩
    · intro hmem
      exact absurd (Finset.mem_filter.mp hmem).2 (lt_irrefl _)

theorem work_goto (hlt : pc.work size payload < (s.pc t).work size payload) :
    (∀ u ≠ t, (s.goto t pc).pc u = s.pc u) ∧
      ((s.goto t pc).pc t).work size payload < (s.pc t).work size payload := by
  refine ⟨fun u hu => update_of_ne hu _ _,?_⟩
  simpa [State.goto] using hlt

theorem walk_lookup {key : K} {l : List Nat} {p : Option Nat} {fuel : Nat}
    (h : Chain (fun c => (next c).map Cell.node) (p.map Cell.node) (l.map Cell.node))
    (hfuel : l.length ≤ fuel) : walk payload next key fuel p = some (lookup payload key l) := by
  induction l generalizing p fuel with
  | nil =>
    cases p with
    | none => cases fuel <;> rfl
    | some => cases h
  | cons c l ih =>
    cases p with
    | none => cases h
    | some =>
      cases fuel with
      | zero => simp at hfuel
      | succ =>
        cases h with
        | cons _ rest =>
          rw [walk,lookup]
          split
          next => rfl
          next => exact ih rest (by simpa using hfuel)

theorem lookup_mem {key : K} {v : V} {l : List Nat} (h : lookup payload key l = some v) :
    ∃ i ∈ l, payload i = ⟨key,v⟩ := by
  induction l with
  | nil => cases h
  | cons i l ih =>
    rw [lookup] at h
    split at h
    next hkey =>
      cases h
      exact ⟨i,mem_cons_self,by rw [← hkey]⟩
    next =>
      obtain ⟨j,hj,hv⟩ := ih h
      exact ⟨j,mem_cons_of_mem _ hj,hv⟩

theorem lookup_some_iff {key : K} {v : V} {l : List Nat} (h : Sorted payload l) :
    lookup payload key l = some v ↔ ∃ i ∈ l, payload i = ⟨key,v⟩ := by
  refine ⟨lookup_mem,?_⟩
  rintro ⟨i,hi,hv⟩
  obtain ⟨b,a,rfl⟩ := append_of_mem hi
  have hkey : (payload i).key = key := by rw [hv]
  rw [lookup_here hkey fun p hp => hkey ▸ (h.around.2.1 p hp).ne,hv]

/-- The list of a bucket, as its pointers have it: strictly sorted, with the payloads that hash to
it, each once. -/
structure Rebuilt (hash : K → Nat) (idxSize size : Nat) (payload : Nat → Payload K V) (s : State)
    (b : Nat) (l : List Nat) : Prop where
  chain : Chain (fun c => (s.next c).map Cell.node) (some (.head b)) (.head b :: l.map .node)
  sorted : l.Pairwise fun i j => (payload i).key < (payload j).key
  nodup : l.Nodup
  complete : ∀ i, i ∈ l ↔ i < size ∧ bucket hash idxSize payload i = b

section
variable (h : Inv hash idxSize recThd size payload L s)
include h

theorem Inv.apart {u j : Nat}
    (hin : (s.pc t).inside = some i) (hu : u ≠ t) (hj : (s.pc u).inside = some j) :
    bucket hash idxSize payload j ≠ bucket hash idxSize payload i := by
  intro he
  have ht := (h.lock (bucket hash idxSize payload i) t).mpr (by rw [hin]; rfl)
  have hju := (h.lock (bucket hash idxSize payload i) u).mpr (by rw [hj,← he]; rfl)
  exact hu (some.inj (hju.symm.trans ht))

theorem Inv.others {u : Nat} (hin : (s.pc t).inside = some i) (hu : u ≠ t)
    (hL : ∀ b ≠ bucket hash idxSize payload i, L' b = L b)
    (hnext : ∀ j ≠ i, j ∉ L (bucket hash idxSize payload j) → s'.next (.node j) = s.next (.node j)) :
    (s.pc u).Inv hash idxSize size payload L' s'.next := by
  refine (h.pc u).frame (fun j hj => hL _ (h.apart hin hu hj)) ?_
  intro j hj hout
  refine hnext j ?_ hout
  rintro rfl
  exact h.apart hin hu hj rfl

theorem Inv.inside_step (pc : Pc) (hin : (s.pc t).inside = some i) (hin' : pc.inside = some i)
    (hpc : s'.pc = update s.pc t pc) (hlock : s'.lock = s.lock)
    (hrun : s'.exited = s.exited) (htable : Table hash idxSize size payload L' s'.next)
    (hinv : pc.Inv hash idxSize size payload L' s'.next)
    (hL : ∀ b ≠ bucket hash idxSize payload i, L' b = L b)
    (hmem : ∀ j ≠ i, j ∈ L' (bucket hash idxSize payload j) ↔ j ∈ L (bucket hash idxSize payload j))
    (hnext : ∀ j ≠ i, j ∉ L (bucket hash idxSize payload j) → s'.next (.node j) = s.next (.node j))
    (hfresh : i ∉ L' (bucket hash idxSize payload i) → (∀ prev, pc ≠ .splice i prev) →
      s'.next (.node i) = none) :
    Inv hash idxSize recThd size payload L' s' := by
  have hself : s'.pc t = pc := by rw [hpc,update_self]
  have hother : ∀ u, u ≠ t → s'.pc u = s.pc u := fun u hu => by rw [hpc,update_of_ne hu]
  have hpassed : ∀ u, (s'.pc u).passed size = (s.pc u).passed size := by
    intro u
    by_cases hu : u = t
    · rw [hu,hself,Pc.inside_passed hin',Pc.inside_passed hin]
    · rw [hother u hu]
  have hinside : ∀ u, (s'.pc u).inside = (s.pc u).inside := by
    intro u
    by_cases hu : u = t
    · rw [hu,hself,hin,hin']
    · rw [hother u hu]
  obtain ⟨htid,hmod⟩ := h.own t i (.inl hin)
  refine ⟨htable,hrun.trans h.running,?_,?_,?_,?_,?_,?_⟩
  · intro u
    by_cases hu : u = t
    · rw [hu,hself]
      exact hinv
    · rw [hother u hu]
      exact h.others hin hu hL hnext
  · intro b u
    rw [hlock,hinside]
    exact h.lock b u
  · intro u j hj
    rw [hinside] at hj
    refine h.own u j (hj.imp id ?_)
    intro hfetch
    by_cases hu : u = t
    · rw [hu,hself] at hfetch
      rw [hfetch] at hin'
      cases hin'
    · rwa [hother u hu] at hfetch
  · intro u hu j hj hju hlt
    rw [hpassed] at hlt
    refine (hmem j ?_).mpr (h.inserted u hu j hj hju hlt)
    rintro rfl
    obtain rfl : u = t := hju.symm.trans hmod
    rw [Pc.inside_passed hin] at hlt
    exact absurd hlt (lt_irrefl _)
  · intro u hu j hju hle hj
    rw [hpassed] at hle
    by_cases hji : j = i
    · subst hji
      obtain rfl : u = t := hju.symm.trans hmod
      rw [hself]
      exact hinv.linked hin' hj
    · obtain ⟨prev,hprev⟩ := h.pending u hu j hju hle ((hmem j hji).mp hj)
      refine ⟨prev,?_⟩
      have hut : u ≠ t := by
        rintro rfl
        rw [hprev] at hin
        exact hji (some.inj hin)
      rw [hother u hut,hprev]
  · intro j hj hsplice
    by_cases hji : j = i
    · subst hji
      exact hfresh hj fun prev hp => hsplice t prev (hself.trans hp)
    · have hout : j ∉ L (bucket hash idxSize payload j) := fun hin => hj ((hmem j hji).mpr hin)
      rw [hnext j hji hout]
      refine h.fresh j hout ?_
      intro u prev hp
      by_cases hu : u = t
      · rw [hu] at hp
        rw [hp] at hin
        exact hji (some.inj hin)
      · exact hsplice u prev ((hother u hu).trans hp)

theorem Inv.border (t : Nat) (pc : Pc) (hsplice : ∀ j prev, s.pc t ≠ .splice j prev)
    (hpc : s'.pc = update s.pc t pc) (hnext : s'.next = s.next)
    (hrun : s'.exited = s.exited) (hinv : pc.Inv hash idxSize size payload L s.next)
    (hlock : ∀ b u, s'.lock b = some u ↔
      (s'.pc u).inside.map (bucket hash idxSize payload) = some b)
    (hown : ∀ j, pc.inside = some j ∨ pc = .fetch j → t < recThd ∧ j % recThd = t)
    (hinserted : ∀ j < size, j % recThd = t → j < pc.passed size →
      j ∈ L (bucket hash idxSize payload j))
    (hpending : ∀ j, j % recThd = t → pc.passed size ≤ j →
      j ∉ L (bucket hash idxSize payload j)) : Inv hash idxSize recThd size payload L s' := by
  have hself : s'.pc t = pc := by rw [hpc,update_self]
  have hother : ∀ u, u ≠ t → s'.pc u = s.pc u := fun u hu => by rw [hpc,update_of_ne hu]
  refine ⟨by rw [hnext]; exact h.table,hrun.trans h.running,?_,hlock,?_,?_,?_,?_⟩
  · intro u
    rw [hnext]
    by_cases hu : u = t
    · rw [hu,hself]
      exact hinv
    · rw [hother u hu]
      exact h.pc u
  · intro u j hj
    by_cases hu : u = t
    · rw [hu,hself] at hj
      rw [hu]
      exact hown j hj
    · rw [hother u hu] at hj
      exact h.own u j hj
  · intro u hu j hj hju hlt
    by_cases hut : u = t
    · rw [hut,hself] at hlt
      exact hinserted j hj (hju.trans hut) hlt
    · rw [hother u hut] at hlt
      exact h.inserted u hu j hj hju hlt
  · intro u hu j hju hle hj
    by_cases hut : u = t
    · rw [hut,hself] at hle
      exact absurd hj (hpending j (hju.trans hut) hle)
    · rw [hother u hut] at hle ⊢
      exact h.pending u hu j hju hle hj
  · intro j hj hnot
    rw [hnext]
    refine h.fresh j hj ?_
    intro u prev hp
    by_cases hu : u = t
    · exact hsplice j prev (hu ▸ hp)
    · exact hnot u prev ((hother u hu).trans hp)

theorem Inv.release (prev : Cell) (hthd : 0 < recThd)
    (hpc : s.pc t = .link i prev) (hi : i ∈ L (bucket hash idxSize payload i)) :
    Inv hash idxSize recThd size payload L
      ((s.hold (bucket hash idxSize payload i) none).goto t (.fetch (i + recThd))) := by
  have hin : (s.pc t).inside = some i := by rw [hpc]; rfl
  obtain ⟨htid,hmod⟩ := h.own t i (.inl hin)
  have hpassed : (s.pc t).passed size = i := Pc.inside_passed hin
  refine h.border t (.fetch (i + recThd)) ?_ rfl rfl rfl trivial ?_ ?_ ?_ ?_
  · intro j prev' hp
    cases hpc.symm.trans hp
  · intro b u
    simp only [State.goto,State.hold,update_apply]
    split <;> split
    next => simp [Pc.inside]
    next hb hu =>
      subst hb
      refine ⟨fun hn => (by cases hn),?_⟩
      intro hj
      obtain ⟨j,hj,he⟩ := map_eq_some_iff.mp hj
      exact absurd he (h.apart hin hu hj)
    next hb hu =>
      rw [h.lock b u,hu,hin]
      simp [Pc.inside,Ne.symm hb]
    next => exact h.lock b u
  · intro j hj
    simp only [Pc.inside,Pc.fetch.injEq,reduceCtorEq,false_or] at hj
    rw [← hj,Nat.add_mod_right]
    exact ⟨htid,hmod⟩
  · intro j hj hjt hlt
    simp only [Pc.passed] at hlt
    rcases lt_trichotomy j i with hji | rfl | hij
    · exact h.inserted t htid j hj hjt (by rw [hpassed]; exact hji)
    · exact hi
    · -- no payload of the worker lies between `i` and the next one
      have hdvd := Nat.dvd_of_mod_eq_zero (Nat.sub_mod_eq_zero_of_mod_eq (hjt.trans hmod.symm))
      have hle := Nat.le_of_dvd (by omega) hdvd
      omega
  · intro j hjt hle hj
    simp only [Pc.passed] at hle
    obtain ⟨prev',hlink⟩ := h.pending t htid j hjt (by rw [hpassed]; omega) hj
    rw [hpc] at hlink
    cases hlink
    omega

theorem Inv.not_fetched {j : Nat} (hpc : s.pc t = .fetch i) (hj : j % recThd = t) (hle : i ≤ j) :
    j ∉ L (bucket hash idxSize payload j) := by
  intro hin
  obtain ⟨prev,hlink⟩ := h.pending t (h.own t i (.inr hpc)).1 j hj (by rw [hpc]; exact hle) hin
  cases hpc.symm.trans hlink

theorem Inv.acquire (hpc : s.pc t = .fetch i)
    (hi : i < size) (hfree : s.lock (bucket hash idxSize payload i) = none) :
    Inv hash idxSize recThd size payload L
      ((s.hold (bucket hash idxSize payload i) (some t)).goto t
        (.scan i (.head (bucket hash idxSize payload i))
          (s.next (.head (bucket hash idxSize payload i))))) := by
  obtain ⟨htid,hmod⟩ := h.own t i (.inr hpc)
  have hat : At hash idxSize payload L i (.head (bucket hash idxSize payload i))
      (L (bucket hash idxSize payload i)) [] := ⟨rfl,⟨[],rfl⟩,by simp⟩
  refine h.border t (.scan i (.head _) (s.next (.head _))) ?_ rfl rfl rfl
    ⟨hi,h.not_fetched hpc hmod le_rfl,[],_,hat,h.table.next_prev hat⟩ ?_ ?_ ?_ ?_
  · intro j prev hp
    cases hpc.symm.trans hp
  · intro b u
    simp only [State.goto,State.hold,update_apply]
    split <;> split
    next hb hu => simp [Pc.inside,hb,hu]
    next hb hu =>
      rw [← h.lock b u,hb,hfree]
      simp [Ne.symm hu]
    next hb hu =>
      rw [h.lock b u,hu,hpc]
      simp [Pc.inside,Ne.symm hb]
    next => exact h.lock b u
  · intro j hj
    simp only [Pc.inside,some.injEq,reduceCtorEq,or_false] at hj
    rw [← hj]
    exact ⟨htid,hmod⟩
  · intro j hj hjt hlt
    exact h.inserted t htid j hj hjt (by rw [hpc]; exact hlt)
  · intro j hjt hle
    exact h.not_fetched hpc hjt hle

theorem Inv.finish (hpc : s.pc t = .fetch i)
    (hi : size ≤ i) : Inv hash idxSize recThd size payload L (s.goto t .finished) := by
  obtain ⟨htid,-⟩ := h.own t i (.inr hpc)
  refine h.border t .finished ?_ rfl rfl rfl trivial ?_ ?_ ?_ ?_
  · intro j prev hp
    cases hpc.symm.trans hp
  · intro b u
    simp only [State.goto,update_apply]
    split
    next hu =>
      rw [h.lock b u,hu,hpc]
      rfl
    next => exact h.lock b u
  · intro j hj
    simp [Pc.inside] at hj
  · intro j hj hjt _
    exact h.inserted t htid j hj hjt (by rw [hpc]; exact lt_of_lt_of_le hj hi)
  · intro j _ hle hj
    exact absurd (h.table.members _ j hj).1 (not_lt.mpr hle)

theorem Inv.insert (hin : (s.pc t).inside = some i) (hi : i < size)
    (hat : At hash idxSize payload L i prev after before)
    (hnew : s.next (.node i) = after.head?)
    (hafter : ∀ j ∈ after, (payload i).key < (payload j).key) :
    Inv hash idxSize recThd size payload
      (update L (bucket hash idxSize payload i) (before ++ i :: after))
      ((s.store prev (some i)).goto t (.link i prev)) := by
  have htable := h.table.insert hat hi (hnew.trans (h.table.next_prev hat).symm) hafter
  have hself : update L (bucket hash idxSize payload i) (before ++ i :: after)
      (bucket hash idxSize payload i) = before ++ i :: after := update_self _ _ _
  refine h.inside_step (.link i prev) hin rfl rfl rfl rfl htable
    ⟨hi,.inr ⟨before,after,hself,hat.prev,hat.less⟩⟩ ?_ ?_ ?_ ?_
  · intro b hb
    exact update_of_ne hb _ _
  · intro j hj
    by_cases hb : bucket hash idxSize payload j = bucket hash idxSize payload i
    · rw [hb,hself,hat.list]
      simp [hj]
    · rw [update_of_ne hb]
  · intro j _ hout
    simp only [State.goto,State.store]
    rw [update_of_ne]
    intro hp
    have hj : j ∈ L (bucket hash idxSize payload i) := by
      rcases hat.prev_cases with hhead | ⟨j',hj',hnode⟩
      · cases hp.trans hhead
      · cases hp.trans hnode
        rw [hat.list]
        exact mem_append_left _ hj'
    rw [← (h.table.members _ j hj).2] at hj
    exact hout hj
  · intro hout
    exact absurd (by rw [hself]; simp) hout

theorem Inv.unlinked {curr : Option Nat}
    (hpc : s.pc t = .scan i prev curr) (hout : i ∉ L (bucket hash idxSize payload i)) :
    s.next (.node i) = none := by
  have hin : (s.pc t).inside = some i := by rw [hpc]; rfl
  refine h.fresh i hout ?_
  intro u prev' hp
  have hu : u = t := by
    by_contra hu
    exact h.apart hin hu (by rw [hp]; rfl) rfl
  rw [hu,hpc] at hp
  cases hp

theorem Inv.scan_at {c : Nat} (hpc : s.pc t = .scan i prev (some c)) :
    i < size ∧ i ∉ L (bucket hash idxSize payload i) ∧ c ∈ L (bucket hash idxSize payload i) ∧
      ∃ before rest, At hash idxSize payload L i prev (c :: rest) before := by
  obtain ⟨hi,hout,before,after,hat,hcurr⟩ : Pc.Inv hash idxSize size payload L s.next
      (.scan i prev (some c)) := hpc ▸ h.pc t
  cases after with
  | nil => cases hcurr
  | cons d rest =>
    cases hcurr
    exact ⟨hi,hout,by rw [hat.list]; simp,before,rest,hat⟩

theorem Inv.scan {c : Nat}
    (hd : ∀ i < size, ∀ j < size, (payload i).key = (payload j).key → i = j)
    (hpc : s.pc t = .scan i prev (some c)) :
    (payload c).key ≠ (payload i).key ∧
      ((payload i).key < (payload c).key → Inv hash idxSize recThd size payload L
        ((s.store (.node i) (some c)).goto t (.splice i prev))) ∧
      (¬(payload i).key < (payload c).key → Inv hash idxSize recThd size payload L
        (s.goto t (.scan i (.node c) (s.next (.node c))))) := by
  have hin : (s.pc t).inside = some i := by rw [hpc]; rfl
  obtain ⟨hi,hout,hc,before,rest,hat⟩ := h.scan_at hpc
  have hne : (payload c).key ≠ (payload i).key := by
    intro he
    obtain rfl := hd c (h.table.members _ c hc).1 i hi he
    exact hout hc
  have hfresh := h.unlinked hpc hout
  refine ⟨hne,?_,?_⟩
  · intro hlt
    have hself : update s.next (.node i) (some c) (.node i) = some c :=
      update_self _ _ _
    refine h.inside_step (.splice i prev) hin rfl rfl rfl rfl (h.table.store_new hout)
      ⟨hi,hout,before,c,rest,hat,hself,hlt⟩ (fun _ _ => rfl) (fun _ _ => Iff.rfl) ?_ ?_
    · intro j hj _
      simp only [State.goto,State.store]
      rw [update_of_ne (by simpa using hj)]
    · intro _ hnot
      exact absurd rfl (hnot prev)
  · intro hge
    have hat' : At hash idxSize payload L i (.node c) rest (before ++ [c]) := by
      refine ⟨by rw [hat.list]; simp,?_,?_⟩
      · exact ⟨.head (bucket hash idxSize payload i) :: before.map .node,by simp⟩
      · intro j hj
        rcases mem_append.mp hj with hj | hj
        · exact hat.less j hj
        · rw [mem_singleton.mp hj]
          exact lt_of_le_of_ne (not_lt.mp hge) hne
    exact h.inside_step (.scan i (.node c) (s.next (.node c))) hin rfl rfl rfl rfl h.table
      ⟨hi,hout,_,_,hat',h.table.next_prev hat'⟩ (fun _ _ => rfl) (fun _ _ => Iff.rfl)
      (fun _ _ _ => rfl) (fun _ _ => hfresh)

theorem Inv.step (hthd : 0 < recThd)
    (hd : ∀ i < size, ∀ j < size, (payload i).key = (payload j).key → i = j)
    (hs : step hash idxSize recThd size payload s t = some s') :
    ∃ L', Inv hash idxSize recThd size payload L' s' := by
  simp only [Rebuild.step,h.running,Bool.false_eq_true,if_false] at hs
  split at hs
  next hpc =>
    split at hs
    next hi =>
      split at hs <;> cases hs
      next hfree => exact ⟨L,h.acquire hpc hi hfree⟩
    next hi =>
      cases hs
      exact ⟨L,h.finish hpc (not_lt.mp hi)⟩
  next i prev hpc =>
    cases hs
    have hin : (s.pc t).inside = some i := by rw [hpc]; rfl
    obtain ⟨hi,hout,before,after,hat,hcurr⟩ : Pc.Inv hash idxSize size payload L s.next
      (.scan i prev none) := hpc ▸ h.pc t
    have hfresh := h.unlinked hpc hout
    obtain rfl : after = [] := head?_eq_none_iff.mp hcurr.symm
    exact ⟨L,h.inside_step (.link i prev) hin rfl rfl rfl rfl h.table
      ⟨hi,.inl ⟨hout,hfresh,before,hat⟩⟩ (fun _ _ => rfl) (fun _ _ => Iff.rfl) (fun _ _ _ => rfl)
      (fun _ _ => hfresh)⟩
  next hpc =>
    obtain ⟨hne,hsplice,hscan⟩ := h.scan hd hpc
    rw [if_neg hne] at hs
    split at hs <;> cases hs
    next hlt => exact ⟨L,hsplice hlt⟩
    next hge => exact ⟨L,hscan hge⟩
  next i prev hpc =>
    cases hs
    have hin : (s.pc t).inside = some i := by rw [hpc]; rfl
    obtain ⟨hi,hout,before,c,after,hat,hnew,hlt⟩ : Pc.Inv hash idxSize size payload L s.next
      (.splice i prev) := hpc ▸ h.pc t
    refine ⟨_,h.insert hin hi hat hnew ?_⟩
    have hsorted : Sorted payload (before ++ c :: after) := hat.list ▸ h.table.sorted _
    intro j hj
    rcases mem_cons.mp hj with rfl | hj
    · exact hlt
    · exact hlt.trans (hsorted.around.2.2 j hj)
  next i prev hpc =>
    cases hs
    have hin : (s.pc t).inside = some i := by rw [hpc]; rfl
    obtain ⟨hi,⟨hout,hnew,before,hat⟩ | ⟨before,after,hat⟩⟩ : Pc.Inv hash idxSize size payload L
      s.next (.link i prev) := hpc ▸ h.pc t
    · have hlinked := (h.insert hin hi hat hnew (by simp)).release (t := t) (i := i) prev hthd
        (by simp [State.goto]) (by simp)
      rw [goto_hold_goto] at hlinked
      exact ⟨_,hlinked⟩
    · -- the predecessor points to the node already
      have hsame : s.store prev (some i) = s := by
        rw [State.store,← head?_cons (a := i) (l := after),← h.table.next_prev hat,
          update_eq_self]
      rw [hsame]
      exact ⟨L,h.release prev hthd hpc (by rw [hat.list]; simp)⟩
  next => cases hs

theorem Inv.progress :
    s.returned recThd ∨ ∃ t s', Rebuild.step hash idxSize recThd size payload s t = some s' := by
  have hinside : ∀ t i, (s.pc t).inside = some i →
      ∃ s', Rebuild.step hash idxSize recThd size payload s t = some s' := by
    intro t i hi
    simp only [Rebuild.step,h.running,Bool.false_eq_true,if_false]
    split
    next hpc => rw [hpc] at hi; cases hi
    next => exact ⟨_,rfl⟩
    next => (repeat' split) <;> exact ⟨_,rfl⟩
    next => exact ⟨_,rfl⟩
    next => exact ⟨_,rfl⟩
    next hpc => rw [hpc] at hi; cases hi
  by_cases hdone : s.returned recThd
  · exact .inl hdone
  · simp only [State.returned] at hdone
    push Not at hdone
    obtain ⟨t,-,hpc⟩ := hdone
    right
    cases hin : (s.pc t).inside with
    | some i => exact ⟨t,hinside t i hin⟩
    | none =>
      cases hfetch : s.pc t with
      | finished => exact absurd hfetch hpc
      | scan | splice | link => rw [hfetch] at hin; cases hin
      | fetch i =>
        cases hlock : s.lock (bucket hash idxSize payload i) with
        | none =>
          refine ⟨t,?_⟩
          simp only [Rebuild.step,h.running,Bool.false_eq_true,if_false,hfetch,hlock,if_true]
          split <;> exact ⟨_,rfl⟩
        | some u =>
          obtain ⟨j,hj,-⟩ := map_eq_some_iff.mp ((h.lock _ u).mp hlock)
          exact ⟨u,hinside u j hj⟩

theorem Inv.works (hthd : 0 < recThd)
    (hd : ∀ i < size, ∀ j < size, (payload i).key = (payload j).key → i = j)
    (hs : Rebuild.step hash idxSize recThd size payload s t = some s') :
    t < recThd ∧ (∀ u ≠ t, s'.pc u = s.pc u) ∧
      (s'.pc t).work size payload < (s.pc t).work size payload := by
  simp only [Rebuild.step,h.running,Bool.false_eq_true,if_false] at hs
  split at hs
  next i hpc =>
    refine ⟨(h.own t i (.inr hpc)).1,?_⟩
    split at hs
    next =>
      split at hs <;> cases hs
      refine work_goto (s := s.hold _ _) ?_
      have hround : (size - i) * (size + 4) = (size - i - 1) * (size + 4) + (size + 4) := by
        rw [← Nat.succ_mul]
        congr 1
        omega
      simp only [State.hold,hpc,Pc.work,rank,hround]
      omega
    next =>
      cases hs
      refine work_goto ?_
      rw [hpc]
      exact Nat.succ_pos _
  next i prev hpc =>
    cases hs
    refine ⟨(h.own t i (.inl (by rw [hpc]; rfl))).1,work_goto ?_⟩
    simp only [hpc,Pc.work]
    omega
  next i prev c hpc =>
    refine ⟨(h.own t i (.inl (by rw [hpc]; rfl))).1,?_⟩
    obtain ⟨hne,-,-⟩ := h.scan hd hpc
    obtain ⟨-,-,hc,before,rest,hat⟩ := h.scan_at hpc
    rw [if_neg hne] at hs
    split at hs <;> cases hs
    next =>
      refine work_goto (s := s.store _ _) ?_
      simp only [State.store,hpc,Pc.work]
      omega
    next =>
      refine work_goto ?_
      simp only [hpc,Pc.work]
      refine Nat.add_lt_add_left (rank_decreases (h.table.members _ c hc).1 ?_) _
      intro j hj
      have hsorted : Sorted payload (before ++ c :: rest) := hat.list ▸ h.table.sorted _
      rcases hat.prev_cases with hhead | ⟨j',hj',hnode⟩
      · cases hj.symm.trans hhead
      · cases hj.symm.trans hnode
        exact hsorted.around.2.1 j hj'
  next i prev hpc =>
    cases hs
    refine ⟨(h.own t i (.inl (by rw [hpc]; rfl))).1,work_goto (s := s.store _ _) ?_⟩
    simp only [State.store,hpc,Pc.work]
    omega
  next i prev hpc =>
    cases hs
    refine ⟨(h.own t i (.inl (by rw [hpc]; rfl))).1,work_goto (s := (s.store _ _).hold _ _) ?_⟩
    have hle : (size - (i + recThd)) * (size + 4) ≤ (size - i - 1) * (size + 4) :=
      Nat.mul_le_mul_right _ (by omega)
    simp only [State.store,State.hold,hpc,Pc.work]
    omega
  next => cases hs

theorem Inv.rebuilt (hthd : 0 < recThd)
    (hdone : s.returned recThd) (b : Nat) : Rebuilt hash idxSize size payload s b (L b) := by
  refine ⟨h.table.chain b,h.table.sorted b,?_,?_⟩
  · refine (h.table.sorted b).imp ?_
    rintro i _ hlt rfl
    exact absurd hlt (lt_irrefl _)
  · intro i
    refine ⟨h.table.members b i,?_⟩
    rintro ⟨hi,rfl⟩
    have ht := Nat.mod_lt i hthd
    exact h.inserted _ ht i hi rfl (by rw [hdone _ ht]; exact hi)

end

theorem Rebuilt.get {key : K} {l : List Nat} {fuel : Nat}
    (h : Rebuilt hash idxSize size payload s (hash key % idxSize) l) (hfuel : size ≤ fuel) :
    Rebuild.get hash idxSize payload fuel s key = some (lookup payload key l) := by
  have hlength : l.length ≤ size := by
    have hsub : l ⊆ List.range size := fun i hi => mem_range.mpr ((h.complete i).mp hi).1
    simpa using (h.nodup.subperm hsub).length_le
  cases h.chain with
  | cons _ rest => exact walk_lookup rest (le_trans hlength hfuel)

theorem run_length (hthd : 0 < recThd)
    (hd : ∀ i < size, ∀ j < size, (payload i).key = (payload j).key → i = j)
    {ms : List (Move State Nat)}
    (run : Run (Rebuild.step hash idxSize recThd size payload) (fun _ _ => True) (init recThd) ms s) :
    (∃ L, Inv hash idxSize recThd size payload L s) ∧
      ms.length + ∑ t ∈ Finset.range recThd, (s.pc t).work size payload ≤
        recThd * (size * (size + 4) + 1) := by
  induction run with
  | nil =>
    refine ⟨⟨_,init_inv⟩,?_⟩
    rw [length_nil,Nat.zero_add]
    refine (Finset.sum_le_card_nsmul _ _ (size * (size + 4) + 1) ?_).trans_eq (by simp)
    intro t ht
    simp only [init,if_pos (Finset.mem_range.mp ht),Pc.work]
    exact Nat.add_le_add_right (Nat.mul_le_mul_right _ (Nat.sub_le _ _)) _
  | @snoc ms s t s' run _ hs ih =>
    obtain ⟨⟨L,h⟩,hle⟩ := ih
    obtain ⟨ht,hothers,hlt⟩ := h.works hthd hd hs
    refine ⟨h.step hthd hd hs,?_⟩
    have hsum : ∑ u ∈ Finset.range recThd, (s'.pc u).work size payload <
        ∑ u ∈ Finset.range recThd, (s.pc u).work size payload := by
      refine Finset.sum_lt_sum ?_ ⟨t,Finset.mem_range.mpr ht,hlt⟩
      intro u _
      by_cases hu : u = t
      · rw [hu]
        exact le_of_lt hlt
      · rw [hothers u hu]
    rw [length_append,length_singleton]
    omega

/-- Recovery with pairwise different keys never exits, is not stuck before it returns, and returns
after a bounded number of steps; then every bucket has the payloads of its keys in order, and `get`
finds exactly the recovered keys. -/
theorem recover_rebuilds (hthd : 0 < recThd)
    (hd : ∀ i < size, ∀ j < size, (payload i).key = (payload j).key → i = j)
    {ms : List (Move State Nat)}
    (run : Run (Rebuild.step hash idxSize recThd size payload) (fun _ _ => True) (init recThd) ms s) :
    s.exited = false ∧ ms.length ≤ recThd * (size * (size + 4) + 1) ∧
      (s.returned recThd ∨ ∃ t s', Rebuild.step hash idxSize recThd size payload s t = some s') ∧
      (s.returned recThd → (∀ b, ∃ l, Rebuilt hash idxSize size payload s b l) ∧
        ∀ fuel key, size ≤ fuel → ∃ found, Rebuild.get hash idxSize payload fuel s key = some found ∧
          ∀ v, found = some v ↔ ∃ i < size, payload i = ⟨key,v⟩) := by
  obtain ⟨⟨L,h⟩,hle⟩ := run_length hthd hd run
  refine ⟨h.running,by omega,h.progress,?_⟩
  intro hdone
  refine ⟨fun b => ⟨L b,h.rebuilt hthd hdone b⟩,?_⟩
  intro fuel key hfuel
  have hbucket := h.rebuilt hthd hdone (hash key % idxSize)
  refine ⟨_,hbucket.get hfuel,?_⟩
  intro v
  rw [lookup_some_iff hbucket.sorted]
  constructor
  · rintro ⟨i,hi,hv⟩
    exact ⟨i,((hbucket.complete i).mp hi).1,hv⟩
  · rintro ⟨i,hi,hv⟩
    exact ⟨i,(hbucket.complete i).mpr ⟨hi,by rw [bucket,hv]⟩,hv⟩

def threePayloads (i : Nat) : Payload Nat Nat := ⟨(3 * i + 2) % 5,10 * i⟩

theorem recover_rebuilds_three : ∃ ms s,
    Run (Rebuild.step id 2 2 3 threePayloads) (fun _ _ => True) (init 2) ms s ∧
      ms.map Move.act = [0,0,0,1,0,1,0,1,0,1,0,1] ∧ s.returned 2 ∧
      s.next (.head 0) = some 1 ∧ s.next (.node 1) = some 0 ∧
      ∀ b, ∃ l, Rebuilt id 2 3 threePayloads s b l := by
  obtain ⟨s,hplay,hend⟩ : ∃ s, play (Rebuild.step id 2 2 3 threePayloads) (init 2)
      [0,0,0,1,0,1,0,1,0,1,0,1] = some s ∧
        decide (s.pc 0 = .finished ∧ s.pc 1 = .finished ∧ s.next (.head 0) = some 1 ∧
          s.next (.node 1) = some 0) = true :=
    map_eq_some_iff.mp (by decide +kernel)
  obtain ⟨hzero,hone,hhead,hnode⟩ := of_decide_eq_true hend
  have hdone : s.returned 2 := by
    intro t ht
    obtain rfl | rfl : t = 0 ∨ t = 1 := by omega
    · exact hzero
    · exact hone
  have run := Run.nil.trace hplay
  exact ⟨_,s,run,trace_acts hplay,hdone,hhead,hnode,
    ((recover_rebuilds (by decide) (by decide) run).2.2.2 hdone).1⟩

end Montage.MontageHashTable.Rebuild
