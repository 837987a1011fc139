import Montage.NatarajanTree.Model

namespace Montage.NatarajanTree
open Library

variable {K V : Type} [LinearOrder K]

def Linked (s : State K V) (n : Nat) : Prop := Reach s.next nodeR n

def State.turns (s : State K V) (key : K) (n : Nat) (side : Side) : Prop := side = s.side key n

def On (s : State K V) (key : K) (n : Nat) : Prop := Path s.next (s.turns key) nodeR n

def IsLeaf (s : State K V) (n : Nat) : Prop :=
  (s.node n).level = .finite ∧ ∀ side, s.next n side = none

omit [LinearOrder K] in
theorem leaf_iff {s : State K V} {n : Nat} : Leaf s n ↔ Linked s n ∧ IsLeaf s n := Iff.rfl

/-- The tree, where `L` are the nodes that have been linked so far. A tag stands beside a flag,
a flag over a leaf, and a node that has been unlinked has no plain pointer left. -/
structure Core (L : Set Nat) (s : State K V) : Prop where
  root : nodeR ∈ L
  made : ∀ n ∈ L, n < s.made
  closed : ∀ n ∈ L, ∀ c m, s.next n c = some m → m ∈ L
  shape : ∀ n ∈ L, (∀ c, s.edge n c = ⟨none,false,false⟩) ∨ ∀ c, s.next n c ≠ none
  single : ∀ n m c d x, Linked s n → Linked s m → s.next n c = some x → s.next m d = some x →
    n = m ∧ c = d
  live : ∀ n ∈ L, ∀ c m, s.edge n c = .plain m → Linked s n
  tagged : ∀ n ∈ L, ∀ c, (s.edge n c).tg = true → (s.edge n c.other).flg = true
  flagged : ∀ n ∈ L, ∀ c, (s.edge n c).flg = true → ∃ m, s.next n c = some m ∧ IsLeaf s m
  rootEdge : s.edge nodeR .left = .plain nodeS
  rootLevel : (s.node nodeR).level ≠ .finite ∧ (s.node nodeS).level ≠ .finite
  first : ∃ m, s.next nodeS .left = some m ∧ (s.node m).level ≠ .finite
  right : ∀ n ∈ L, (s.node n).level ≠ .finite → ∀ m, s.next n .right = some m →
    (s.node m).level ≠ .finite ∧ (s.edge n .right).flg = false
  ordered : ∀ n, Leaf s n → On s (s.node n).key n
  durable : ∀ n, n ∈ s.committed ∧ n ∉ s.retired ↔ Leaf s n
  logged : ∀ n, n ∈ s.committed ∨ n ∈ s.retired → n ∈ L
  payload : ∀ n ∈ L, IsLeaf s n → (s.node n).payload ≠ none

variable {L L' : Set Nat} {s s' : State K V} {a f i l n m p x y : Nat} {c d e : Side} {w : Edge}
  {key : K}

section
omit [LinearOrder K]

@[simp] theorem other_other (c : Side) : c.other.other = c := by cases c <;> rfl

theorem other_ne (c : Side) : c.other ≠ c := by cases c <;> simp [Side.other]

theorem eq_or_other (c d : Side) : d = c ∨ d = c.other := by cases c <;> cases d <;> simp [Side.other]

theorem next_of_plain (h : s.edge p c = .plain l) : s.next p c = some l := by
  rw [State.next,h]
  rfl

end

theorem turns_unique (key : K) (n : Nat) (c d : Side) (hc : s.turns key n c)
    (hd : s.turns key n d) : c = d :=
  hc.trans hd.symm

theorem node_less_inf (h : (s.node n).level ≠ .finite) : s.nodeLess key n = true := by
  cases hl : (s.node n).level <;> simp_all [State.nodeLess,Level.toInt]

theorem node_less_finite (h : (s.node n).level = .finite) :
    s.nodeLess key n = decide (key < (s.node n).key) := by
  simp [State.nodeLess,h]

theorem side_congr (h : s'.node n = s.node n) : s'.side key n = s.side key n := by
  have hless : s'.nodeLess key n = s.nodeLess key n := by
    unfold State.nodeLess
    rw [h]
  rw [State.side,State.side,hless]

theorem side_inf (h : (s.node n).level ≠ .finite) : s.side key n = .left := by
  rw [State.side,node_less_inf h,if_pos rfl]

namespace Core
variable (h : Core L s)
include h

theorem linked_mem (hn : Linked s n) : n ∈ L :=
  Path.mem hn h.root fun a ha d b _ hb => h.closed a ha d b hb

theorem linked_s : Linked s nodeS :=
  Reach.snoc (Library.Path.refl nodeR) (d := .left) (next_of_plain h.rootEdge)

theorem on_s (key : K) : On s key nodeS := by
  refine (Library.Path.refl nodeR).snoc (d := .left) ?_ (next_of_plain h.rootEdge)
  exact (side_inf h.rootLevel.1).symm

theorem inner (hn : n ∈ L) (hm : s.next n c = some m) : ∀ d, s.next n d ≠ none := by
  rcases h.shape n hn with hleaf | hinner
  · rw [State.next,hleaf c] at hm
    cases hm
  · exact hinner

theorem flagged_leaf (hn : n ∈ L) (hflg : (s.edge n c).flg = true) (hm : s.next n c = some m) :
    IsLeaf s m := by
  obtain ⟨m',hm',hleaf⟩ := h.flagged n hn c hflg
  rw [hm] at hm'
  cases hm'
  exact hleaf

theorem right_unflagged (hn : n ∈ L) (hlevel : (s.node n).level ≠ .finite) :
    (s.edge n .right).flg = false := by
  by_contra hflg
  rw [Bool.not_eq_false] at hflg
  obtain ⟨m,hm,-⟩ := h.flagged n hn .right hflg
  rw [(h.right n hn hlevel m hm).2] at hflg
  cases hflg

theorem first_plain : (s.edge nodeS .left).flg = false ∧ (s.edge nodeS .left).tg = false := by
  have hs := h.linked_mem h.linked_s
  obtain ⟨m,hm,hlevel⟩ := h.first
  constructor
  · by_contra hflg
    rw [Bool.not_eq_false] at hflg
    exact hlevel (h.flagged_leaf hs hflg hm).1
  · by_contra htg
    rw [Bool.not_eq_false] at htg
    have hflg := h.tagged nodeS hs .left htg
    rw [Side.other,h.right_unflagged hs h.rootLevel.2] at hflg
    cases hflg

theorem flagged_not_root (hn : n ∈ L) (hflg : (s.edge n c).flg = true) : n ≠ nodeR ∧ n ≠ nodeS := by
  constructor
  · rintro rfl
    cases c with
    | left =>
      rw [h.rootEdge] at hflg
      cases hflg
    | right =>
      rw [h.right_unflagged hn h.rootLevel.1] at hflg
      cases hflg
  · rintro rfl
    cases c with
    | left =>
      rw [h.first_plain.1] at hflg
      cases hflg
    | right =>
      rw [h.right_unflagged hn h.rootLevel.2] at hflg
      cases hflg

theorem unique (hn : Leaf s n) (hm : Leaf s m) (hkey : (s.node n).key = (s.node m).key) : n = m := by
  have hon := h.ordered n hn
  rw [hkey] at hon
  exact Path.ends (turns_unique _) hon (h.ordered m hm) hn.2.2 hm.2.2

end Core

structure Writes (s s' : State K V) (p : Nat) (c : Side) (w : Edge) : Prop where
  node : s'.node = s.node
  made : s'.made = s.made
  self : s'.edge p c = w
  other : ∀ n d, ¬(n = p ∧ d = c) → s'.edge n d = s.edge n d

namespace Writes
variable (hw : Writes s s' p c w)
include hw

theorem turns : s'.turns = s.turns := by
  funext key n d
  rw [State.turns,State.turns,side_congr (congrFun hw.node n)]

section
omit [LinearOrder K]

theorem next_self : s'.next p c = w.ptr := by rw [State.next,hw.self]

theorem next_other (n : Nat) (d : Side) (hne : ¬(n = p ∧ d = c)) : s'.next n d = s.next n d := by
  rw [State.next,State.next,hw.other n d hne]

theorem next_eq (hptr : w.ptr = s.next p c) : s'.next = s.next := by
  funext n d
  by_cases he : n = p ∧ d = c
  · rw [he.1,he.2,hw.next_self,hptr]
  · exact hw.next_other n d he

theorem next_cases (hptr : w.ptr = some y) (hx : s'.next n d = some x) :
    n = p ∧ d = c ∧ y = x ∨ ¬(n = p ∧ d = c) ∧ s.next n d = some x := by
  by_cases he : n = p ∧ d = c
  · rw [he.1,he.2,hw.next_self,hptr] at hx
    exact .inl ⟨he.1,he.2,Option.some.inj hx⟩
  · rw [hw.next_other n d he] at hx
    exact .inr ⟨he,hx⟩

end

end Writes

end Montage.NatarajanTree
