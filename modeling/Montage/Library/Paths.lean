import Mathlib.Data.Set.Basic

namespace Montage.Library

variable {α δ : Type}

variable (succ : α → δ → Option α) (ok : α → δ → Prop)

/-- What is found from a node along pointers, where `ok` says which ones may be followed. -/
def Path : α → α → Prop :=
  Relation.ReflTransGen fun a b => ∃ d, ok a d ∧ succ a d = some b

def Reach : α → α → Prop := Path succ fun _ _ => True

def Inner (a : α) : Prop :=
  ∃ d b, ok a d ∧ succ a d = some b

/-- A search that has come to `n` meets no inner node outside its own path from the root. -/
def Guides (r n : α) : Prop :=
  ∀ m, Path succ ok n m → Reach succ r m → Inner succ ok m → Path succ ok r m

variable {succ succ' : α → δ → Option α} {ok ok' : α → δ → Prop} {a b f m n p r x y : α} {c d : δ}
  {L : Set α}

theorem Path.refl (a : α) : Path succ ok a a := Relation.ReflTransGen.refl

section
variable (h : Path succ ok a b)
include h

theorem Path.snoc (hd : ok b d) (hm : succ b d = some m) : Path succ ok a m :=
  Relation.ReflTransGen.tail h ⟨d,hd,hm⟩

theorem Path.trans (h' : Path succ ok b m) : Path succ ok a m :=
  Relation.ReflTransGen.trans h h'

theorem Path.mono (hsub : ∀ a d b, ok a d → succ a d = some b → ok' a d ∧ succ' a d = some b) :
    Path succ' ok' a b := by
  induction h with
  | refl => exact .refl a
  | tail _ hstep ih =>
    obtain ⟨d,hd,hb⟩ := hstep
    obtain ⟨hd',hb'⟩ := hsub _ d _ hd hb
    exact ih.snoc hd' hb'

theorem Path.reach : Reach succ a b :=
  h.mono fun _ _ _ _ hb => ⟨trivial,hb⟩

omit h in
theorem Reach.snoc (h : Reach succ a b) (hm : succ b d = some m) : Reach succ a m :=
  Path.snoc h trivial hm

theorem Path.mem (ha : a ∈ L)
    (closed : ∀ a ∈ L, ∀ d b, ok a d → succ a d = some b → b ∈ L) : b ∈ L := by
  induction h with
  | refl => exact ha
  | tail _ hstep ih =>
    obtain ⟨d,hd,hb⟩ := hstep
    exact closed _ ih d _ hd hb

theorem Path.congr (ha : a ∈ L) (closed : ∀ a ∈ L, ∀ d b, succ a d = some b → b ∈ L)
    (same : ∀ a ∈ L, ∀ d, ok a d → ok' a d ∧ succ' a d = succ a d) : Path succ' ok' a b := by
  induction h with
  | refl => exact .refl a
  | tail hpath hstep ih =>
    obtain ⟨d,hd,hb⟩ := hstep
    have hmem := Path.mem hpath ha fun a ha d b _ hb => closed a ha d b hb
    obtain ⟨hok,hsucc⟩ := same _ hmem d hd
    exact ih.snoc hok (hsucc.trans hb)

theorem Path.stop (hstop : ∀ d, succ a d = none) : b = a := by
  rcases Relation.ReflTransGen.cases_head h with rfl | ⟨x,⟨d,-,hx⟩,-⟩
  · rfl
  · rw [hstop d] at hx
    cases hx

end

theorem Path.ends (hok : ∀ a d e, ok a d → ok a e → d = e) (hm : Path succ ok a m)
    (hn : Path succ ok a n) (hms : ∀ d, succ m d = none) (hns : ∀ d, succ n d = none) : m = n := by
  have hunique : Relator.RightUnique fun a b => ∃ d, ok a d ∧ succ a d = some b := by
    rintro a b b' ⟨d,hd,hb⟩ ⟨e,he,hb'⟩
    rw [hok a d e hd he,hb'] at hb
    exact (Option.some.inj hb).symm
  rcases Relation.ReflTransGen.total_of_right_unique hunique hm hn with h | h
  · exact (Path.stop h hms).symm
  · exact Path.stop h hns

section Redirect
variable (hsame : ∀ a d, ¬(a = p ∧ d = c) → succ' a d = succ a d)
include hsame

/-- One pointer from `x` is redirected to `y`, where `x` led only to `y` and to an end `f`. What
was found is found again but for `x` and `f`. -/
theorem Path.redirect (hold : succ p c = some x) (hnew : succ' p c = some y)
    (hx : ∀ d b, succ x d = some b → b = f ∨ b = y) (hf : ∀ d, succ f d = none)
    (h : Path succ ok r m) :
    Path succ' ok r m ∨ (m = x ∨ m = f) ∧ Path succ' ok r p ∧ ok p c := by
  induction h with
  | refl => exact .inl (.refl r)
  | @tail b m _ hstep ih =>
    obtain ⟨d,hd,hm⟩ := hstep
    rcases ih with hpath | ⟨rfl | rfl,hp,hc⟩
    · by_cases he : b = p ∧ d = c
      · obtain ⟨rfl,rfl⟩ := he
        rw [hold] at hm
        cases hm
        exact .inr ⟨.inl rfl,hpath,hd⟩
      · exact .inl (hpath.snoc hd ((hsame b d he).trans hm))
    · rcases hx d m hm with rfl | rfl
      · exact .inr ⟨.inr rfl,hp,hc⟩
      · exact .inl (hp.snoc hc hnew)
    · rw [hf d] at hm
      cases hm

/-- What can no longer be found keeps its pointers, so a search that is there goes on as
before. -/
theorem Path.kept (hp : Reach succ' r p)
    (closed : ∀ a ∈ L, ∀ d b, succ a d = some b → b ∈ L) (hn : n ∈ L)
    (h : Path succ' ok n m) : Reach succ' r m ∨ Path succ ok n m ∧ m ∈ L := by
  induction h with
  | refl => exact .inr ⟨.refl n,hn⟩
  | @tail b m _ hstep ih =>
    obtain ⟨d,hd,hm⟩ := hstep
    rcases ih with hreach | ⟨hpath,hb⟩
    · exact .inl (hreach.snoc hm)
    · by_cases he : b = p
      · exact .inl ((he ▸ hp : Reach succ' r b).snoc hm)
      · rw [hsame b d fun h => he h.1] at hm
        exact .inr ⟨hpath.snoc hd hm,closed b hb d m hm⟩

theorem Guides.kept (hg : Guides succ ok r n) (hp : Reach succ' r p)
    (closed : ∀ a ∈ L, ∀ d b, succ a d = some b → b ∈ L) (hn : n ∈ L)
    (back : ∀ m ∈ L, Reach succ' r m → Inner succ' ok m → Reach succ r m ∧ Inner succ ok m)
    (on : ∀ m, Path succ ok r m → Reach succ' r m → Inner succ' ok m → Path succ' ok r m) :
    Guides succ' ok r n := by
  intro m hpath
  have hold : ∀ m, Path succ ok n m → m ∈ L → Reach succ' r m → Inner succ' ok m →
      Path succ' ok r m := by
    intro m hpath hm hreach hinner
    obtain ⟨hreach0,hinner0⟩ := back m hm hreach hinner
    exact on m (hg m hpath hreach0 hinner0) hreach hinner
  induction hpath with
  | refl => exact hold n (.refl n) hn
  | @tail b m hpath hstep ih =>
    intro hreach hinner
    obtain ⟨d,hd,hm⟩ := hstep
    by_cases hb : Reach succ' r b
    · exact (ih hb ⟨d,m,hd,hm⟩).snoc hd hm
    · rcases Path.kept hsame hp closed hn hpath with hb' | ⟨hpath0,hbm⟩
      · exact absurd hb' hb
      · have hne : b ≠ p := fun he => hb (he ▸ hp)
        rw [hsame b d fun h => hne h.1] at hm
        exact hold m (hpath0.snoc hd hm) (closed b hbm d m hm) hreach hinner

end Redirect

theorem Guides.next (hg : Guides succ ok r n) (hd : ok n d) (hm : succ n d = some m) :
    Guides succ ok r m :=
  fun x hx => hg x (Path.trans ((Path.refl n).snoc hd hm) hx)

theorem Path.guides (h : Path succ ok r n) : Guides succ ok r n :=
  fun _ hm _ _ => h.trans hm

end Montage.Library
