import Montage.Library.Runs
import Montage.Mindicator.Scan

namespace Montage.Mindicator
open Library Function List Option

/-- A node of the tree, by the way that leads up from it to the root: `b :: p` is a child
of `p`. -/
abbrev Way := List Bool

def Tree.sub (t : Tree) : Way → Option Tree
  | [] => some t
  | b :: p =>
    match t.sub p with
    | some (.node _ l r) => some (if b then r else l)
    | _ => none

def Tree.fill (vals : Way → Nat) (p : Way) : Tree → Tree
  | .null => .null
  | .leaf i _ => .leaf i (vals p)
  | .node _ l r => .node (vals p) (l.fill vals (false :: p)) (r.fill vals (true :: p))

/-- The other end of `paths[tid]`, where `p` leads to the root of the tree. -/
def Tree.leafWay (tid : Nat) (p : Way) : Tree → Option Way
  | .null => none
  | .leaf i _ => if i = tid then some p else none
  | .node _ l r => (l.leafWay tid (false :: p)).or (r.leafWay tid (true :: p))

def Tree.Ordered : Tree → Prop
  | .null | .leaf _ _ => True
  | .node v l r => v ≤ l.val ∧ v ≤ r.val ∧ l.Ordered ∧ r.Ordered

theorem sub_child {tree t : Tree} {p : Way} {b : Bool} (h : tree.sub (b :: p) = some t) :
    ∃ v l r, tree.sub p = some (.node v l r) ∧ t = if b then r else l := by
  simp only [Tree.sub] at h
  split at h
  next v l r hp => exact ⟨v,l,r,hp,(some.inj h).symm⟩
  next => cases h

theorem leaf_way_leaf {tree t : Tree} {tid : Nat} {p q : Way} (hp : tree.sub p = some t)
    (h : t.leafWay tid p = some q) : ∃ v, tree.sub q = some (.leaf tid v) := by
  induction t generalizing p with
  | null => cases h
  | leaf i v =>
    simp only [Tree.leafWay] at h
    split at h
    next hi =>
      cases h
      exact ⟨v,hi ▸ hp⟩
    next => cases h
  | node v l r ihl ihr =>
    simp only [Tree.leafWay] at h
    rcases or_eq_some_iff.mp h with h | ⟨-,h⟩
    · exact ihl (p := false :: p) (by simp [Tree.sub,hp]) h
    · exact ihr (p := true :: p) (by simp [Tree.sub,hp]) h

theorem fill_val (t : Tree) (vals : Way → Nat) (p : Way) (h : t ≠ .null) :
    (t.fill vals p).val = vals p := by
  cases t with
  | null => exact absurd rfl h
  | leaf => rfl
  | node => rfl

theorem Tree.Ordered.sub {t u : Tree} {p : Way} (h : t.Ordered) (hu : t.sub p = some u) :
    u.Ordered := by
  induction p generalizing u with
  | nil =>
    cases hu
    exact h
  | cons b p ih =>
    obtain ⟨v,l,r,hp,rfl⟩ := sub_child hu
    obtain ⟨-,-,hl,hr⟩ := ih hp
    cases b with
    | false => exact hl
    | true => exact hr

theorem Tree.Ordered.le {t : Tree} (h : t.Ordered) : ∀ x ∈ t.entries, t.val ≤ x.2 := by
  induction t with
  | null => simp [Tree.entries]
  | leaf => simp [Tree.entries,Tree.val]
  | node v l r ihl ihr =>
    obtain ⟨hl,hr,hol,hor⟩ := h
    intro x hx
    rcases mem_append.mp hx with hx | hx
    · exact le_trans hl (ihl hol x hx)
    · exact le_trans hr (ihr hor x hx)

theorem find_next_thread_le_some {t : Tree} {x : Nat} (h : t.Ordered) :
    (∀ i, t.findNextThreadLe x = some i → ∃ a, (i,a) ∈ t.entries ∧ a ≤ x) ∧
      (t.findNextThreadLe x = none → ∀ y ∈ t.entries, x < y.2) := by
  induction t with
  | null => simp [Tree.findNextThreadLe,Tree.entries]
  | leaf i v =>
    simp only [Tree.findNextThreadLe,Tree.entries]
    split
    next => simp; omega
    next =>
      refine ⟨?_,by simp⟩
      intro j hj
      cases hj
      exact ⟨v,by simp,by omega⟩
  | node v l r ihl ihr =>
    have hle := h.le
    obtain ⟨-,-,hl,hr⟩ := h
    simp only [Tree.findNextThreadLe]
    split
    next hgt =>
      refine ⟨by simp,?_⟩
      intro _ y hy
      exact lt_of_lt_of_le hgt (hle y hy)
    next =>
      constructor
      · intro i hi
        rcases or_eq_some_iff.mp hi with hi | ⟨-,hi⟩
        · obtain ⟨a,ha,hx⟩ := (ihl hl).1 i hi
          exact ⟨a,mem_append_left _ ha,hx⟩
        · obtain ⟨a,ha,hx⟩ := (ihr hr).1 i hi
          exact ⟨a,mem_append_right _ ha,hx⟩
      · intro hnone y hy
        obtain ⟨hnl,hnr⟩ := or_eq_none_iff.mp hnone
        rcases mem_append.mp hy with hy | hy
        · exact (ihl hl).2 hnl y hy
        · exact (ihr hr).2 hnr y hy

namespace Concurrent

/-- The next access of a thread in `after_persist_epoch`. At a node `p` it has come from its
child `b` with the value `val`; `old` is what it has loaded from the node. -/
inductive Pc where
  | idle
  | leafLoad (e : Nat) (p : Way)
  | leafCas (e : Nat) (p : Way) (old : Nat)
  | load (p : Way) (b : Bool) (val : Nat)
  | sibling (p : Way) (b : Bool) (val old : Nat)
  | cas (p : Way) (b : Bool) (old new : Nat)
  | reload (p : Way) (b : Bool) (old : Nat)

structure State where
  vals : Way → Nat
  pc : Nat → Pc

def State.goto (s : State) (t : Nat) (pc : Pc) : State :=
  { s with pc := update s.pc t pc }

def State.store (s : State) (p : Way) (v : Nat) : State :=
  { s with vals := update s.vals p v }

def init (t : Tree) : State where
  vals p := (t.sub p).elim nullEpoch Tree.val
  pc _ := .idle

def tryLeaf (e : Nat) (p : Way) (old : Nat) : Pc := if old > e then .idle else .leafCas e p old

def climb (val : Nat) : Way → Pc
  | [] => .idle
  | b :: p => .load p b val

def access (s : State) (t : Nat) : Option State :=
  match s.pc t with
  | .idle => none
  -- after_persist_epoch
  | .leafLoad e p => some (s.goto t (tryLeaf e p (s.vals p)))
  | .leafCas e p old =>
    if s.vals p = old then some ((s.store p ((e + 1) % 2 ^ 64)).goto t (climb e p))
    else some (s.goto t (tryLeaf e p (s.vals p)))
  -- propagate
  | .load p b val => some (s.goto t (.sibling p b val (s.vals p)))
  | .sibling p b val old =>
    let newMin := min val (s.vals ((!b) :: p))
    if newMin > old then some (s.goto t (.cas p b old newMin)) else some (s.goto t .idle)
  | .cas p b old newMin =>
    if s.vals p = old then some ((s.store p newMin).goto t (climb newMin p))
    else some (s.goto t (.reload p b (s.vals p)))
  | .reload p b old => some (s.goto t (.sibling p b (s.vals (b :: p)) old))

inductive Act where
  | call (t e tid : Nat)
  | access (t : Nat)

def step (tree : Tree) (s : State) : Act → Option State
  | .call t e tid =>
    match s.pc t, tree.leafWay tid [] with
    | .idle, some p => if e ≤ uint64Max then some (s.goto t (.leafLoad e p)) else none
    | _, _ => none
  | .access t => access s t

/-- The next epoch of a call is a `uint64_t` as well. -/
def HasNext (_ : State) : Act → Prop
  | .call _ e _ => e < uint64Max
  | .access _ => True

def Order (tree : Tree) (vals : Way → Nat) : Prop :=
  ∀ p v l r, tree.sub p = some (.node v l r) → ∀ b, vals p ≤ vals (b :: p)

def Inner (tree : Tree) (p : Way) : Prop := ∃ v l r, tree.sub p = some (.node v l r)

/-- What a thread in `after_persist_epoch` relies on: it has come up the tree, and what it
carries and what it has loaded are lower bounds. -/
def Pc.Inv (tree : Tree) (vals : Way → Nat) : Pc → Prop
  | .idle => True
  | .leafLoad e p => e < uint64Max ∧ ∃ i v, tree.sub p = some (.leaf i v)
  | .leafCas e p old => e < uint64Max ∧ old ≤ e ∧ ∃ i v, tree.sub p = some (.leaf i v)
  | .load p b val => Inner tree p ∧ val ≤ vals (b :: p)
  | .sibling p b val _ => Inner tree p ∧ val ≤ vals (b :: p)
  | .cas p _ old new => Inner tree p ∧ old < new ∧ ∀ c, new ≤ vals (c :: p)
  | .reload p _ _ => Inner tree p

structure Inv (tree : Tree) (s : State) : Prop where
  order : Order tree s.vals
  pc : ∀ t, (s.pc t).Inv tree s.vals

variable {tree : Tree} {s s' : State} {p : Way} {pc : Pc} {t : Nat} {vals vals' : Way → Nat}

theorem Pc.Inv.mono (h : pc.Inv tree vals) (hle : ∀ q, vals q ≤ vals' q) : pc.Inv tree vals' := by
  cases pc with
  | idle => trivial
  | leafLoad e p | leafCas e p old | reload => exact h
  | load | sibling => exact ⟨h.1,le_trans h.2 (hle _)⟩
  | cas => exact ⟨h.1,h.2.1,fun c => le_trans (h.2.2 c) (hle _)⟩

theorem store_le {v : Nat} (h : s.vals p ≤ v) (q : Way) : s.vals q ≤ (s.store p v).vals q := by
  simp only [State.store,update_apply]
  split
  next hq => rwa [hq]
  next => exact le_rfl

theorem Order.store {v : Nat} (h : Order tree s.vals) (hle : s.vals p ≤ v)
    (hchild : Inner tree p → ∀ b, v ≤ s.vals (b :: p)) : Order tree (s.store p v).vals := by
  intro q u l r hq b
  by_cases hqp : q = p
  · subst hqp
    have hne : b :: q ≠ q := by simp
    simp only [State.store,update_self,update_of_ne hne]
    exact hchild ⟨u,l,r,hq⟩ b
  · simp only [State.store,update_of_ne hqp]
    exact le_trans (h q u l r hq b) (store_le hle _)

theorem Inv.move (hi : Inv tree s) (ho : Order tree s'.vals) (hle : ∀ q, s.vals q ≤ s'.vals q)
    (hpc : s'.pc = update s.pc t pc) (h : pc.Inv tree s'.vals) : Inv tree s' := by
  refine ⟨ho,?_⟩
  intro u
  rw [hpc,update_apply]
  split
  next => exact h
  next => exact (hi.pc u).mono hle

theorem Inv.goto (hi : Inv tree s) (h : pc.Inv tree s.vals) : Inv tree (s.goto t pc) :=
  hi.move hi.order (fun _ => le_rfl) rfl h

theorem try_leaf_inv {e old : Nat} (he : e < uint64Max)
    (hp : ∃ i v, tree.sub p = some (.leaf i v)) : (tryLeaf e p old).Inv tree vals := by
  unfold tryLeaf
  split
  next => trivial
  next => exact ⟨he,by omega,hp⟩

theorem climb_inv {v : Nat} {u : Tree} (hp : tree.sub p = some u) (hv : v ≤ vals p) :
    (climb v p).Inv tree vals := by
  cases p with
  | nil => trivial
  | cons =>
    obtain ⟨w,l,r,hq,-⟩ := sub_child hp
    exact ⟨⟨w,l,r,hq⟩,hv⟩

theorem access_inv (hi : Inv tree s) (h : access s t = some s') :
    Inv tree s' ∧ ∀ q, s.vals q ≤ s'.vals q := by
  have hpc := hi.pc t
  have hgo : ∀ pc, pc.Inv tree s.vals → Inv tree (s.goto t pc) ∧
      ∀ q, s.vals q ≤ (s.goto t pc).vals q :=
    fun pc hpc => ⟨hi.goto hpc,fun _ => le_rfl⟩
  unfold access at h
  split at h
  next => cases h
  next hp =>
    cases h
    rw [hp] at hpc
    exact hgo _ (try_leaf_inv hpc.1 hpc.2)
  next e p old hp =>
    rw [hp] at hpc
    obtain ⟨he,hold,i,v,hleaf⟩ := hpc
    split at h <;> cases h
    next =>
      have hnext : (e + 1) % 2 ^ 64 = e + 1 := by
        simp only [uint64Max] at he
        omega
      have hle : s.vals p ≤ (e + 1) % 2 ^ 64 := by omega
      have hinner : ¬Inner tree p := by
        rintro ⟨u,l,r,hnode⟩
        cases hleaf.symm.trans hnode
      refine ⟨hi.move (hi.order.store hle fun h => absurd h hinner) (store_le hle) rfl ?_,
        store_le hle⟩
      refine climb_inv hleaf ?_
      simp only [State.goto,State.store,update_self]
      omega
    next => exact hgo _ (try_leaf_inv he ⟨i,v,hleaf⟩)
  next hp =>
    cases h
    rw [hp] at hpc
    exact hgo _ hpc
  next b val old hp =>
    rw [hp] at hpc
    simp only at h
    split at h <;> cases h
    next hlt =>
      refine hgo _ ⟨hpc.1,hlt,?_⟩
      intro c
      have hval := hpc.2
      by_cases hc : c = b
      · subst hc
        omega
      · have hc : c = !b := by
          cases b <;> cases c <;> simp_all
        subst hc
        omega
    next => exact hgo _ trivial
  next p b old newMin hp =>
    rw [hp] at hpc
    obtain ⟨⟨v,l,r,hnode⟩,hlt,hchild⟩ := hpc
    split at h <;> cases h
    next =>
      have hle : s.vals p ≤ newMin := by omega
      refine ⟨hi.move (hi.order.store hle fun _ => hchild) (store_le hle) rfl ?_,store_le hle⟩
      refine climb_inv hnode ?_
      simp [State.goto,State.store]
    next => exact hgo _ ⟨v,l,r,hnode⟩
  next hp =>
    cases h
    rw [hp] at hpc
    exact hgo _ ⟨hpc,le_rfl⟩

theorem step_inv {a : Act} (hi : Inv tree s) (he : HasNext s a) (h : step tree s a = some s') :
    Inv tree s' ∧ ∀ q, s.vals q ≤ s'.vals q := by
  cases a with
  | call =>
    simp only [step] at h
    split at h
    next hway =>
      split at h <;> cases h
      exact ⟨hi.goto ⟨he,_,leaf_way_leaf rfl hway⟩,fun _ => le_rfl⟩
    next => cases h
  | access => exact access_inv hi h

theorem clean_sub {t : Tree} (h : tree.Clean) (hp : tree.sub p = some t) : t.Clean := by
  induction p generalizing t with
  | nil =>
    cases hp
    exact h
  | cons b p ih =>
    obtain ⟨v,l,r,hq,rfl⟩ := sub_child hp
    obtain ⟨-,hl,hr⟩ := ih hq
    cases b with
    | false => exact hl
    | true => exact hr

theorem init_inv (h : tree.Clean) : Inv tree (init tree) where
  order p v l r hp b := by
    have hclean := clean_sub h hp
    simp only [init,hp,elim_some,Tree.val,hclean.1]
    exact Nat.zero_le _
  pc _ := trivial

theorem Paired.ne_null {t : Tree} (h : Paired t) : t ≠ .null := by
  cases h <;> simp

theorem fill_ordered {t : Tree} (ho : Order tree vals) (hp : Paired t)
    (h : tree.sub p = some t) : (t.fill vals p).Ordered := by
  induction hp generalizing p with
  | pair => exact ⟨ho p _ _ _ h false,ho p _ _ _ h true,trivial,trivial⟩
  | node hl hr ihl ihr =>
    have hleft := ihl (p := false :: p) (by simp [Tree.sub,h])
    have hright := ihr (p := true :: p) (by simp [Tree.sub,h])
    refine ⟨?_,?_,hleft,hright⟩
    · rw [fill_val _ _ _ (Paired.ne_null hl)]
      exact ho p _ _ _ h false
    · rw [fill_val _ _ _ (Paired.ne_null hr)]
      exact ho p _ _ _ h true

def snapshot (n : Nat) (s : State) : Tree := (build n).fill s.vals []

/-- In every state that calls of `after_persist_epoch` for epochs below `UINT64_MAX` can lead to,
each internal node is at most its children, and the root a lower bound of all leaves; no value ever
decreases; and below any node `find_next_thread_le` finds a leaf of at most the given value if
there is one, and none otherwise. -/
theorem never_overestimates {n : Nat} {ms : List (Move State Act)} (hn : 0 < n)
    (run : Run (step (build n)) HasNext (init (build n)) ms s) :
    (snapshot n s).Ordered ∧ (∀ x ∈ (snapshot n s).entries, (snapshot n s).val ≤ x.2) ∧
    (∀ m ∈ ms, ∀ p, m.pre.vals p ≤ m.post.vals p) ∧
    ∀ p u, (snapshot n s).sub p = some u → ∀ x,
      (∀ i, u.findNextThreadLe x = some i → ∃ a, (i,a) ∈ u.entries ∧ a ≤ x) ∧
      (u.findNextThreadLe x = none ↔ ∀ y ∈ u.entries, x < y.2) := by
  obtain ⟨hpaired,hclean,-⟩ := build_shape hn
  have hkeep : ∀ s a s', Inv (build n) s → HasNext s a → step (build n) s a = some s' →
      Inv (build n) s' := fun _ _ _ hi he h => (step_inv hi he h).1
  have hi := run.invariant _ (init_inv hclean) hkeep
  have ho : (snapshot n s).Ordered := fill_ordered hi.order hpaired rfl
  refine ⟨ho,ho.le,?_,?_⟩
  · intro m hm
    obtain ⟨hm,he,hstep⟩ := run.each _ (init_inv hclean) hkeep m hm
    exact (step_inv hm he hstep).2
  · intro p u hu x
    obtain ⟨hsome,hnone⟩ := find_next_thread_le_some (x := x) (ho.sub hu)
    refine ⟨hsome,hnone,?_⟩
    intro hall
    cases hfind : u.findNextThreadLe x with
    | none => rfl
    | some i =>
      obtain ⟨a,ha,hle⟩ := hsome i hfind
      have hlt : x < a := hall (i,a) ha
      omega

/-- Two threads persist epoch 3: both have stored to their leaves when one of them comes to
the root. -/
theorem never_overestimates_two : ∃ ms s,
    Run (step (build 2)) HasNext (init (build 2)) ms s ∧ s.vals [] = 3 ∧
      (snapshot 2 s).Ordered := by
  obtain ⟨s,hplay,hroot⟩ : ∃ s, play (step (build 2)) (init (build 2))
      [.call 0 3 0,.call 1 3 1,.access 0,.access 1,.access 0,.access 1,.access 0,.access 1,
        .access 0,.access 1,.access 0,.access 1,.access 1] = some s ∧ s.vals [] = 3 :=
    map_eq_some_iff.mp (by decide +kernel)
  obtain ⟨ms,run,-⟩ := Run.performed HasNext hplay (by simp [HasNext,uint64Max])
  exact ⟨ms,s,run,hroot,(never_overestimates (by decide) run).1⟩

/-- Epoch 3 is persisted for both threads, and then `UINT64_MAX` for the first of them: its leaf
goes back from 4 to 0, below the root. -/
theorem last_epoch_wraps : ∃ ms m s,
    Run (step (build 2)) (fun _ _ => True) (init (build 2)) (ms ++ [m]) s ∧
    (ms ++ [m]).map Move.act =
      [.call 0 3 0,.access 0,.access 0,.access 0,.access 0,.call 0 3 1,.access 0,.access 0,
        .access 0,.access 0,.access 0,.call 0 uint64Max 0,.access 0,.access 0] ∧
    m.pre.vals [false] = 4 ∧ m.post.vals [false] = 0 ∧
    snapshot 2 s = .node 3 (.leaf 0 0) (.leaf 1 4) ∧ ¬(snapshot 2 s).Ordered := by
  obtain ⟨s,hplay,hend⟩ : ∃ s, play (step (build 2)) (init (build 2))
      [.call 0 3 0,.access 0,.access 0,.access 0,.access 0,.call 0 3 1,.access 0,.access 0,
        .access 0,.access 0,.access 0,.call 0 uint64Max 0,.access 0] = some s ∧
        decide (s.vals [false] = 4 ∧ ∃ s', step (build 2) s (.access 0) = some s' ∧
          s'.vals [false] = 0 ∧ snapshot 2 s' = .node 3 (.leaf 0 0) (.leaf 1 4)) = true :=
    map_eq_some_iff.mp (by decide +kernel)
  obtain ⟨hold,s',hs,hnew,htree⟩ := of_decide_eq_true hend
  obtain ⟨ms,run,hacts⟩ := Run.performed (fun _ _ => True) hplay fun _ _ _ => trivial
  refine ⟨ms,⟨s,.access 0,s'⟩,s',run.snoc trivial hs,by simp [hacts],hold,hnew,htree,?_⟩
  rw [htree]
  intro h
  exact absurd h.1 (by decide)

end Concurrent

end Montage.Mindicator
