import Montage.NatarajanTree.Tree
import Mathlib.Data.Finset.Lattice.Lemmas

namespace Montage.NatarajanTree
open Library Function Option

variable {K V : Type} [LinearOrder K] {L L' : Set Nat} {s s' : State K V}
  {a f i l n m p x y : Nat} {c d e : Side} {w : Edge} {key : K}

omit [LinearOrder K] in
theorem edge_plain (hptr : w.ptr = some n) (hflg : w.flg = false) (htg : w.tg = false) :
    w = .plain n := by
  cases w
  cases hptr
  cases hflg
  cases htg
  rfl

theorem Core.mark (h : Core L s) (hw : Writes s s' p c w) (hp : p ∈ L)
    (hptr : w.ptr = s.next p c) (hinner : s.next p c ≠ none)
    (hflg : (s.edge p c).flg = true → w.flg = true) (htg : (s.edge p c).tg = true → w.tg = true)
    (hleaf : w.flg = true → ∃ m, s.next p c = some m ∧ IsLeaf s m)
    (hother : w.tg = true → (s.edge p c.other).flg = true)
    (hcommitted : s'.committed = s.committed) (hretired : s'.retired = s.retired) : Core L s' := by
  have hnext := hw.next_eq hptr
  have hlinked : Linked s' = Linked s := by
    funext n
    rw [Linked,Linked,hnext]
  have hisleaf : IsLeaf s' = IsLeaf s := by
    funext n
    rw [IsLeaf,IsLeaf,hnext,hw.node]
  have hleaves : Leaf s' = Leaf s := by
    funext n
    rw [Leaf,Leaf,hnext,hw.node]
  refine ⟨h.root,by rw [hw.made]; exact h.made,by rw [hnext]; exact h.closed,?_,
    by rw [hlinked,hnext]; exact h.single,?_,?_,?_,?_,by rw [hw.node]; exact h.rootLevel,
    by rw [hnext,hw.node]; exact h.first,?_,?_,by rw [hcommitted,hretired,hleaves]; exact h.durable,
    by rw [hcommitted,hretired]; exact h.logged,by rw [hisleaf,hw.node]; exact h.payload⟩
  · intro n hn
    rcases h.shape n hn with hn | hn
    · refine .inl fun d => ?_
      have hne : ¬(n = p ∧ d = c) := by
        rintro ⟨rfl,rfl⟩
        rw [State.next,hn d] at hinner
        exact hinner rfl
      rw [hw.other n d hne]
      exact hn d
    · rw [hnext]
      exact .inr hn
  · intro n hn d m hm
    rw [hlinked]
    by_cases he : n = p ∧ d = c
    · obtain ⟨rfl,rfl⟩ := he
      rw [hw.self] at hm
      subst hm
      refine h.live n hn d m (edge_plain hptr.symm ?_ ?_)
      · exact Bool.not_eq_true _ ▸ fun hf => Bool.noConfusion (hflg hf)
      · exact Bool.not_eq_true _ ▸ fun ht => Bool.noConfusion (htg ht)
    · exact h.live n hn d m (hw.other n d he ▸ hm)
  · intro n hn d ht
    have hold : (s.edge n d.other).flg = true := by
      by_cases he : n = p ∧ d = c
      · obtain ⟨rfl,rfl⟩ := he
        rw [hw.self] at ht
        exact hother ht
      · rw [hw.other n d he] at ht
        exact h.tagged n hn d ht
    by_cases he : n = p ∧ d.other = c
    · obtain ⟨rfl,rfl⟩ := he
      rw [hw.self]
      exact hflg hold
    · rw [hw.other n _ he]
      exact hold
  · intro n hn d hf
    rw [hnext,hisleaf]
    by_cases he : n = p ∧ d = c
    · obtain ⟨rfl,rfl⟩ := he
      rw [hw.self] at hf
      exact hleaf hf
    · rw [hw.other n d he] at hf
      exact h.flagged n hn d hf
  · by_cases he : nodeR = p ∧ Side.left = c
    · obtain ⟨rfl,rfl⟩ := he
      have hroot : s.next nodeR .left = some nodeS := next_of_plain h.rootEdge
      rw [hw.self]
      refine edge_plain (hptr.trans hroot) ?_ ?_
      · by_contra hf
        obtain ⟨m,hm,hm'⟩ := hleaf (Bool.not_eq_false _ ▸ hf)
        rw [hroot] at hm
        cases hm
        exact h.rootLevel.2 hm'.1
      · by_contra ht
        have hf := hother (Bool.not_eq_false _ ▸ ht)
        exact (h.flagged_not_root hp hf).1 rfl
    · rw [hw.other _ _ he]
      exact h.rootEdge
  · intro n hn hlevel m hm
    rw [hw.node] at hlevel ⊢
    rw [hnext] at hm
    obtain ⟨hm',hf⟩ := h.right n hn hlevel m hm
    refine ⟨hm',?_⟩
    by_cases he : n = p ∧ Side.right = c
    · obtain ⟨rfl,rfl⟩ := he
      rw [hw.self]
      by_contra hf
      obtain ⟨x,hx,hx'⟩ := hleaf (Bool.not_eq_false _ ▸ hf)
      rw [hm] at hx
      cases hx
      exact hm' hx'.1
    · rw [hw.other _ _ he]
      exact hf
  · intro n hn
    rw [hleaves] at hn
    rw [On,hnext,hw.turns,hw.node]
    exact h.ordered n hn

structure Added (L : Set Nat) (s : State K V) (n : Nat) : Prop where
  made : n < s.made
  closed : ∀ c m, s.next n c = some m → m ∈ L
  shape : (∀ c, s.edge n c = ⟨none,false,false⟩) ∨ ∀ c, s.next n c ≠ none
  linked : Linked s n
  plain : ∀ c, (s.edge n c).flg = false ∧ (s.edge n c).tg = false
  right : (s.node n).level ≠ .finite → ∀ m, s.next n .right = some m → (s.node m).level ≠ .finite
  payload : IsLeaf s n → (s.node n).payload ≠ none

omit [LinearOrder K] in
theorem redirect_is_leaf (hw : Writes s s' p c w) (hold : s.edge p c = .plain x)
    (hptr : w.ptr = some y) : IsLeaf s' = IsLeaf s := by
  have hnone : ∀ n d, s'.next n d = none ↔ s.next n d = none := by
    intro n d
    by_cases he : n = p ∧ d = c
    · rw [he.1,he.2,hw.next_self,hptr,State.next,hold]
      simp [Edge.plain]
    · rw [hw.next_other n d he]
  funext n
  simp only [IsLeaf,hw.node,hnone]

theorem Core.redirect (h : Core L s) (hw : Writes s s' p c w) (hp : p ∈ L)
    (hold : s.edge p c = .plain x) (hptr : w.ptr = some y) (htg : w.tg = false) (hx : x ≠ nodeS)
    (hflg : w.flg = true → IsLeaf s y)
    (hlevel : (s.node x).level ≠ .finite → (s.node y).level ≠ .finite ∧ w.flg = false)
    (hsub : L ⊆ L') (hy : y ∈ L') (hadded : ∀ n ∈ L', n ∉ L → Added L' s' n)
    (hlinked : Linked s' p)
    (hlive : ∀ n ∈ L, Linked s n → Linked s' n ∨ ∀ d m, s.edge n d ≠ .plain m)
    (hsingle : ∀ n m c d x, Linked s' n → Linked s' m → s'.next n c = some x →
      s'.next m d = some x → n = m ∧ c = d)
    (hordered : ∀ n, Leaf s' n → On s' (s.node n).key n)
    (hdurable : ∀ n, n ∈ s'.committed ∧ n ∉ s'.retired ↔ Leaf s' n)
    (hlogged : ∀ n, n ∈ s'.committed ∨ n ∈ s'.retired → n ∈ L') : Core L' s' := by
  have hisleaf := redirect_is_leaf hw hold hptr
  have hnext : s.next p c = some x := next_of_plain hold
  refine ⟨hsub h.root,?_,?_,?_,hsingle,?_,?_,?_,?_,by rw [hw.node]; exact h.rootLevel,?_,?_,
    by rw [hw.node]; exact hordered,hdurable,hlogged,?_⟩
  · intro n hn
    by_cases hL : n ∈ L
    · rw [hw.made]
      exact h.made n hL
    · exact (hadded n hn hL).made
  · intro n hn d m hm
    by_cases hL : n ∈ L
    · rcases hw.next_cases hptr hm with ⟨-,-,rfl⟩ | ⟨-,hm⟩
      · exact hy
      · exact hsub (h.closed n hL d m hm)
    · exact (hadded n hn hL).closed d m hm
  · intro n hn
    by_cases hL : n ∈ L
    · by_cases hne : n = p
      · subst hne
        refine .inr fun d => ?_
        by_cases hd : d = c
        · rw [hd,hw.next_self,hptr]
          simp
        · rw [hw.next_other n d fun he => hd he.2]
          exact h.inner hL hnext d
      · have hsame : ∀ d, s'.edge n d = s.edge n d := fun d => hw.other n d fun he => hne he.1
        simp only [State.next,hsame]
        exact h.shape n hL
    · exact (hadded n hn hL).shape
  · intro n hn d m hm
    by_cases hL : n ∈ L
    · by_cases he : n = p ∧ d = c
      · rw [he.1]
        exact hlinked
      · rw [hw.other n d he] at hm
        rcases hlive n hL (h.live n hL d m hm) with hn' | hplain
        · exact hn'
        · exact absurd hm (hplain d m)
    · exact (hadded n hn hL).linked
  · intro n hn d ht
    by_cases hL : n ∈ L
    · have hold' : ¬(n = p ∧ d = c) := by
        rintro ⟨rfl,rfl⟩
        rw [hw.self,htg] at ht
        cases ht
      rw [hw.other n d hold'] at ht
      have hf := h.tagged n hL d ht
      have hother : ¬(n = p ∧ d.other = c) := by
        rintro ⟨rfl,rfl⟩
        rw [hold] at hf
        cases hf
      rw [hw.other n _ hother]
      exact hf
    · rw [((hadded n hn hL).plain d).2] at ht
      cases ht
  · intro n hn d hf
    by_cases hL : n ∈ L
    · rw [hisleaf]
      by_cases he : n = p ∧ d = c
      · obtain ⟨rfl,rfl⟩ := he
        rw [hw.self] at hf
        exact ⟨y,hw.next_self.trans hptr,hflg hf⟩
      · rw [hw.other n d he] at hf
        rw [hw.next_other n d he]
        exact h.flagged n hL d hf
    · rw [((hadded n hn hL).plain d).1] at hf
      cases hf
  · have hne : ¬(nodeR = p ∧ Side.left = c) := by
      rintro ⟨rfl,rfl⟩
      rw [h.rootEdge] at hold
      cases hold
      exact hx rfl
    rw [hw.other _ _ hne]
    exact h.rootEdge
  · obtain ⟨m,hm,hm'⟩ := h.first
    rw [hw.node]
    by_cases he : nodeS = p ∧ Side.left = c
    · obtain ⟨rfl,rfl⟩ := he
      rw [hnext] at hm
      cases hm
      exact ⟨y,hw.next_self.trans hptr,(hlevel hm').1⟩
    · rw [hw.next_other _ _ he]
      exact ⟨m,hm,hm'⟩
  · intro n hn hinf m hm
    by_cases hL : n ∈ L
    · rw [hw.node] at hinf ⊢
      by_cases he : n = p ∧ Side.right = c
      · obtain ⟨rfl,rfl⟩ := he
        rw [hw.next_self,hptr] at hm
        cases hm
        rw [hw.self]
        exact hlevel (h.right n hL hinf x hnext).1
      · rw [hw.next_other _ _ he] at hm
        rw [hw.other _ _ he]
        exact h.right n hL hinf m hm
    · exact ⟨(hadded n hn hL).right hinf m hm,((hadded n hn hL).plain .right).1⟩
  · intro n hn hleaf
    by_cases hL : n ∈ L
    · rw [hisleaf] at hleaf
      rw [hw.node]
      exact h.payload n hL hleaf
    · exact (hadded n hn hL).payload hleaf

/-- The payloads of `A` are registered and those of `X` retired, as the leaves change. -/
theorem Core.registers {M : Set Nat} {A X : Finset Nat} (h : Core L s)
    (hcommitted : s'.committed = s.committed ∪ A)
    (hretired : s'.retired = s.retired ∪ X) (hA : ∀ m ∈ A, m ∉ L ∧ m ∉ X ∧ m ∈ M)
    (hX : ∀ m ∈ X, m ∈ L) (hsub : L ⊆ M) (hleaves : ∀ m, Leaf s' m ↔ Leaf s m ∧ m ∉ X ∨ m ∈ A) :
    (∀ m, m ∈ s'.committed ∧ m ∉ s'.retired ↔ Leaf s' m) ∧
      ∀ m, m ∈ s'.committed ∨ m ∈ s'.retired → m ∈ M := by
  simp only [hleaves,← h.durable,hcommitted,hretired,Finset.mem_union]
  refine ⟨fun m => ⟨?_,?_⟩,?_⟩
  · rintro ⟨hm | hm,hm'⟩
    · exact .inl ⟨⟨hm,fun hr => hm' (.inl hr)⟩,fun hx => hm' (.inr hx)⟩
    · exact .inr hm
  · rintro (⟨⟨hm,hr⟩,hx⟩ | hm)
    · exact ⟨.inl hm,not_or.mpr ⟨hr,hx⟩⟩
    · exact ⟨.inr hm,not_or.mpr ⟨fun hr => (hA m hm).1 (h.logged m (.inr hr)),(hA m hm).2.1⟩⟩
  · rintro m ((hm | hm) | hm | hm)
    · exact hsub (h.logged m (.inl hm))
    · exact (hA m hm).2.2
    · exact hsub (h.logged m (.inr hm))
    · exact hsub (hX m hm)

theorem Core.not_above (h : Core L s) (ha : Linked s a) (hm : Linked s m)
    (hold : s.edge a e = .plain p) (hy : s.next m d = some y) (htg : (s.edge m d).tg = true) :
    y ≠ p := by
  rintro rfl
  obtain ⟨rfl,rfl⟩ := h.single a m e d y ha hm (next_of_plain hold) hy
  rw [hold] at htg
  cases htg

theorem redirect_unlinks (h : Core L s) (hw : Writes s s' a e w) (hold : s.edge a e = .plain p)
    (hptr : w.ptr = some y) (ha : a ∈ L) (hflg : (s.edge p c).flg = true) (hf : s.next p c = some f)
    (hy : Linked s y) (hyp : y ≠ p) (hyf : y ≠ f) (hm : Linked s' m) :
    Linked s m ∧ m ≠ p ∧ m ≠ f := by
  have hal : Linked s a := h.live a ha e p hold
  have hap : s.next a e = some p := next_of_plain hold
  have hpl : Linked s p := Reach.snoc hal hap
  have hpL := h.linked_mem hpl
  have hleaf := h.flagged_leaf hpL hflg hf
  refine Path.mem (L := { m | Linked s m ∧ m ≠ p ∧ m ≠ f }) hm
    ⟨Library.Path.refl _,(h.flagged_not_root hpL hflg).1.symm,?_⟩ ?_
  · rintro rfl
    exact h.rootLevel.1 hleaf.1
  · rintro b ⟨hb,hbp,hbf⟩ d x - hx
    rcases hw.next_cases hptr hx with ⟨rfl,rfl,rfl⟩ | ⟨he,hx⟩
    · exact ⟨hy,hyp,hyf⟩
    · refine ⟨Reach.snoc hb hx,?_,?_⟩
      · rintro rfl
        exact he (h.single b a d e x hb hal hx hap)
      · rintro rfl
        exact hbp (h.single b p d c x hb hpl hx hf).1

section Splice
variable (h : Core L s) (hw : Writes s s' a e w) (hold : s.edge a e = .plain p)
  (hptr : w.ptr = some y) (ha : a ∈ L) (hflg : (s.edge p c).flg = true) (hf : s.next p c = some f)
  (htg : (s.edge p c.other).tg = true) (hy : s.next p c.other = some y)
include h hw hold hptr ha hflg hf htg hy

omit htg in
theorem splice_path {ok : Nat → Side → Prop} (hm : Path s.next ok nodeR m) (hmp : m ≠ p)
    (hmf : m ≠ f) : Path s'.next ok nodeR m := by
  have hap := next_of_plain hold
  have hkids : ∀ d b, s.next p d = some b → b = f ∨ b = y := by
    intro d b hb
    rcases eq_or_other c d with rfl | rfl
    · exact .inl (some.inj (hb.symm.trans hf))
    · exact .inr (some.inj (hb.symm.trans hy))
  have hleaf := h.flagged_leaf (h.closed a ha e p hap) hflg hf
  rcases Path.redirect hw.next_other hap (hw.next_self.trans hptr) hkids hleaf.2 hm with
    hm | ⟨rfl | rfl,-⟩
  · exact hm
  · exact absurd rfl hmp
  · exact absurd rfl hmf

theorem splice_linked : ∀ m, Linked s' m ↔ Linked s m ∧ m ≠ p ∧ m ≠ f := by
  have hal : Linked s a := h.live a ha e p hold
  have hpl : Linked s p := Reach.snoc hal (next_of_plain hold)
  have hyp : y ≠ p := h.not_above hal hpl hold hy htg
  have hyf : y ≠ f := by
    rintro rfl
    exact other_ne c (h.single p p c.other c y hpl hpl hy hf).2
  intro m
  refine ⟨redirect_unlinks h hw hold hptr ha hflg hf (Reach.snoc hpl hy) hyp hyf,?_⟩
  rintro ⟨hm,hmp,hmf⟩
  exact splice_path h hw hold hptr ha hflg hf hy hm hmp hmf

theorem splice_ancestor : Linked s' a := by
  have hap : s.next a e = some p := next_of_plain hold
  refine (splice_linked h hw hold hptr ha hflg hf htg hy a).mpr ⟨h.live a ha e p hold,?_,?_⟩
  · rintro rfl
    rcases eq_or_other c e with rfl | rfl
    · rw [hold] at hflg
      cases hflg
    · rw [hold] at htg
      cases htg
  · rintro rfl
    rw [(h.flagged_leaf (h.closed a ha e p hap) hflg hf).2 e] at hap
    cases hap

theorem splice_on (hon : On s key m) (hm : Linked s' m) : On s' key m := by
  obtain ⟨-,hmp,hmf⟩ := (splice_linked h hw hold hptr ha hflg hf htg hy m).mp hm
  rw [On,hw.turns]
  exact splice_path h hw hold hptr ha hflg hf hy hon hmp hmf

theorem Core.splice (hwtg : w.tg = false) (hwflg : w.flg = (s.edge p c.other).flg)
    (hcommitted : s'.committed = s.committed) (hretired : s'.retired = s.retired ∪ {f}) :
    Core L s' := by
  have hlinked := splice_linked h hw hold hptr ha hflg hf htg hy
  have hap : s.next a e = some p := next_of_plain hold
  have hal : Linked s a := h.live a ha e p hold
  have hpl : Linked s p := Reach.snoc hal hap
  have hpL := h.linked_mem hpl
  have hleaf := h.flagged_leaf hpL hflg hf
  have hpinner := h.inner hpL hf
  have hlinkeda : Linked s' a := splice_ancestor h hw hold hptr ha hflg hf htg hy
  have hisleaf := redirect_is_leaf hw hold hptr
  have hleaves : ∀ n, Leaf s' n ↔ Leaf s n ∧ n ≠ f := by
    intro n
    rw [leaf_iff,leaf_iff,hisleaf,hlinked]
    constructor
    · rintro ⟨⟨hn,-,hnf⟩,hend⟩
      exact ⟨⟨hn,hend⟩,hnf⟩
    · rintro ⟨⟨hn,hend⟩,hnf⟩
      refine ⟨⟨hn,?_,hnf⟩,hend⟩
      rintro rfl
      exact hpinner c (hend.2 c)
  obtain ⟨hdurable,hlogged⟩ := h.registers (A := ∅) (hcommitted.trans (Finset.union_empty _).symm)
    hretired (by simp) (by simpa using h.closed p hpL c f hf) (Set.Subset.refl L)
    (by simpa using hleaves)
  refine h.redirect hw ha hold hptr hwtg (h.flagged_not_root hpL hflg).2 ?_ ?_ (Set.Subset.refl L)
    (h.closed p hpL _ _ hy) (fun n hn hn' => absurd hn hn') hlinkeda ?_ ?_ ?_
    hdurable hlogged
  · intro hyflg
    rw [hwflg] at hyflg
    exact h.flagged_leaf hpL hyflg hy
  · intro hlevel
    cases c with
    | left =>
      obtain ⟨hy',hyflg⟩ := h.right p hpL hlevel y hy
      exact ⟨hy',hwflg.trans hyflg⟩
    | right =>
      rw [h.right_unflagged hpL hlevel] at hflg
      cases hflg
  · intro n _ hn
    by_cases hnp : n = p
    · refine .inr fun d m hm => ?_
      subst hnp
      rcases eq_or_other c d with rfl | rfl
      · rw [hm] at hflg
        cases hflg
      · rw [hm] at htg
        cases htg
    · by_cases hnf : n = f
      · refine .inr fun d m hm => ?_
        have hnone := hleaf.2 d
        rw [State.next,← hnf,hm] at hnone
        cases hnone
      · exact .inl ((hlinked n).mpr ⟨hn,hnp,hnf⟩)
  · intro n m c1 d1 x hn hm hnx hmx
    obtain ⟨hn,hnp,-⟩ := (hlinked n).mp hn
    obtain ⟨hm,hmp,-⟩ := (hlinked m).mp hm
    rcases hw.next_cases hptr hnx with ⟨hna,hce,rfl⟩ | ⟨-,hnx⟩ <;>
      rcases hw.next_cases hptr hmx with ⟨hma,hde,hyx⟩ | ⟨-,hmx⟩
    · exact ⟨hna.trans hma.symm,hce.trans hde.symm⟩
    · exact absurd (h.single m p d1 _ y hm hpl hmx hy).1 hmp
    · exact absurd (h.single n p c1 _ y hn hpl (hyx ▸ hnx) hy).1 hnp
    · exact h.single n m c1 d1 x hn hm hnx hmx
  · intro n hn
    exact splice_on h hw hold hptr ha hflg hf htg hy (h.ordered n ((hleaves n).mp hn).1) hn.1

end Splice

structure Fresh (L : Set Nat) (s : State K V) (key : K) (i n : Nat) : Prop where
  internal : i ∉ L ∧ i < s.made
  leaf : n ∉ L ∧ n < s.made
  ne : i ≠ n
  level : (s.node n).level = .finite
  key : (s.node n).key = key
  payload : (s.node n).payload ≠ none
  edges : ∀ c, s.edge n c = ⟨none,false,false⟩

structure Ready (s : State K V) (key : K) (i n l : Nat) : Prop where
  leaf : s.edge i (s.side key i) = .plain n
  other : s.edge i (s.side key i).other = .plain l
  sides : (s.node l).level = .finite → s.side (s.node l).key i = (s.side key i).other
  level : (s.node i).level = .finite ↔ (s.node l).level = .finite

theorem set_internal_ready (hne : s.nodeEqual key l = false) (hil : i ≠ l) :
    Ready (s.setInternal i n l key) key i n l := by
  have hl : (s.setInternal i n l key).node l = s.node l := update_of_ne hil.symm _ _
  have hi : (s.setInternal i n l key).node i = if (s.node l).level ≠ .finite then
      { s.node i with level := (s.node l).level }
    else { s.node i with level := .finite, key := max key (s.node l).key } :=
    update_self ..
  have hedge : (s.setInternal i n l key).edge i = Edge.pair (if s.nodeLess key l then n else l)
      (if s.nodeLess key l then l else n) := update_self ..
  by_cases hlevel : (s.node l).level = .finite
  · rw [if_neg (not_not.mpr hlevel)] at hi
    have hless : s.nodeLess key l = decide (key < (s.node l).key) := node_less_finite hlevel
    have hside : ∀ k, (s.setInternal i n l key).side k i =
        if k < max key (s.node l).key then .left else .right := by
      intro k
      rw [State.side,node_less_finite (by rw [hi]),hi]
      simp
    have hkey : key ≠ (s.node l).key := by
      simpa [State.nodeEqual,hlevel] using hne
    rcases lt_or_gt_of_ne hkey with hlt | hgt
    · have hkside : (s.setInternal i n l key).side key i = .left := by
        rw [hside,if_pos (lt_max_of_lt_right hlt)]
      refine ⟨?_,?_,?_,?_⟩
      iterate 2
        · rw [hkside,hedge,hless,decide_eq_true hlt]
          rfl
      · intro _
        rw [hkside,hl,hside,max_eq_right hlt.le,if_neg (lt_irrefl _)]
        rfl
      · rw [hi,hl]
        exact iff_of_true rfl hlevel
    · have hkside : (s.setInternal i n l key).side key i = .right := by
        rw [hside,max_eq_left hgt.le,if_neg (lt_irrefl _)]
      refine ⟨?_,?_,?_,?_⟩
      iterate 2
        · rw [hkside,hedge,hless,decide_eq_false (not_lt.mpr hgt.le)]
          rfl
      · intro _
        rw [hkside,hl,hside,if_pos (lt_max_of_lt_left hgt)]
        rfl
      · rw [hi,hl]
        exact iff_of_true rfl hlevel
  · rw [if_pos hlevel] at hi
    have hinf : ((s.setInternal i n l key).node i).level ≠ .finite := by
      rw [hi]
      exact hlevel
    refine ⟨?_,?_,?_,?_⟩
    iterate 2
      · rw [side_inf hinf,hedge,node_less_inf hlevel]
        rfl
    · intro hl'
      rw [hl] at hl'
      exact absurd hl' hlevel
    · rw [hl]
      exact iff_of_false hinf hlevel

section
omit [LinearOrder K]

theorem Fresh.leaf_edge (hfresh : Fresh L s key i n) (hw : Writes s s' p c w) (hp : p ∈ L)
    (d : Side) : s'.edge n d = ⟨none,false,false⟩ := by
  rw [hw.other n d fun he => hfresh.leaf.1 (he.1 ▸ hp)]
  exact hfresh.edges d

theorem Fresh.added_leaf (hfresh : Fresh L s key i n) (hw : Writes s s' p c w) (hp : p ∈ L)
    (hlinked : Linked s' n) : Added L' s' n := by
  have hedges := hfresh.leaf_edge hw hp
  refine ⟨by rw [hw.made]; exact hfresh.leaf.2,?_,.inl hedges,hlinked,
    fun d => by rw [hedges d]; exact ⟨rfl,rfl⟩,?_,?_⟩
  · intro d x hx
    rw [State.next,hedges d] at hx
    cases hx
  · intro hlevel
    rw [hw.node] at hlevel
    exact absurd hfresh.level hlevel
  · intro _
    rw [hw.node]
    exact hfresh.payload

theorem Fresh.internal_edge (hfresh : Fresh L s key i n) (hw : Writes s s' p c w) (hp : p ∈ L)
    (d : Side) : s'.edge i d = s.edge i d :=
  hw.other i d fun he => hfresh.internal.1 (he.1 ▸ hp)

end

section OverLeaf
variable (hw : Writes s s' p c w) (hold : s.edge p c = .plain l) (hptr : w.ptr = some y)
  (hl : ∀ d, s.next l d = none)
include hw hold hptr hl

omit [LinearOrder K] in
theorem leaf_path {ok : Nat → Side → Prop} (hm : Path s.next ok nodeR m) :
    Path s'.next ok nodeR m ∨ m = l ∧ Path s'.next ok nodeR p ∧ ok p c := by
  have hnext : s.next p c = some l := next_of_plain hold
  rcases Path.redirect (f := l) hw.next_other hnext (hw.next_self.trans hptr)
    (fun d b hb => by rw [hl d] at hb; cases hb) hl hm with hm | ⟨hm,hpath⟩
  · exact .inl hm
  · exact .inr ⟨hm.elim id id,hpath⟩

theorem leaf_on (hon : On s key m) : On s' key m ∨ m = l ∧ On s' key p ∧ c = s.side key p := by
  rw [On,On,hw.turns]
  exact leaf_path hw hold hptr hl hon

omit [LinearOrder K] in
theorem leaf_parent (h : Linked s p) : Linked s' p := by
  rcases leaf_path hw hold hptr hl h with h' | ⟨rfl,-⟩
  · exact h'
  · have hnone := hl c
    rw [State.next,hold] at hnone
    cases hnone

end OverLeaf

section Link
variable (h : Core L s) (hw : Writes s s' p c (.plain i)) (hold : s.edge p c = .plain l) (hp : p ∈ L)
  (hl : ∀ d, s.next l d = none) (hfresh : Fresh L s key i n) (hready : Ready s key i n l)
include hw hp hfresh hready

theorem link_next : s'.next i (s.side key i) = some n ∧ s'.next i (s.side key i).other = some l := by
  rw [State.next,State.next,hfresh.internal_edge hw hp,hfresh.internal_edge hw hp,
    hready.leaf,hready.other]
  exact ⟨rfl,rfl⟩

include h hold hl

theorem link_linked : ∀ m, Linked s' m ↔ Linked s m ∨ m = i ∨ m = n := by
  obtain ⟨hin,hil⟩ := link_next hw hp hfresh hready
  have hnext : s.next p c = some l := next_of_plain hold
  have hpl : Linked s p := h.live p hp c l hold
  have hi' : Linked s' i := Reach.snoc (leaf_parent hw hold rfl hl hpl) hw.next_self
  intro m
  constructor
  · intro hm
    refine Path.mem (L := { m | Linked s m ∨ m = i ∨ m = n }) hm (.inl (Library.Path.refl _)) ?_
    rintro b hb d x - hx
    rcases hb with hb | rfl | rfl
    · rcases hw.next_cases rfl hx with ⟨-,-,rfl⟩ | ⟨-,hx⟩
      · exact .inr (.inl rfl)
      · exact .inl (Reach.snoc hb hx)
    · rcases eq_or_other (s.side key b) d with rfl | rfl
      · exact .inr (.inr (some.inj (hx.symm.trans hin)))
      · rw [hil] at hx
        cases hx
        exact .inl (Reach.snoc hpl hnext)
    · rw [State.next,hfresh.leaf_edge hw hp] at hx
      cases hx
  · rintro (hm | rfl | rfl)
    · rcases leaf_path hw hold rfl hl hm with hm' | ⟨rfl,-⟩
      · exact hm'
      · exact Reach.snoc hi' hil
    · exact hi'
    · exact Reach.snoc hi' hin

/-- The pointers that are found after a link: the new one, those of `newInternal`, and the old
ones, none of which leads to the leaf. -/
theorem link_edges (hm : Linked s' m) (hx : s'.next m d = some x) :
    m = p ∧ d = c ∧ x = i ∨ m = i ∧ d = s.side key i ∧ x = n ∨
      m = i ∧ d = (s.side key i).other ∧ x = l ∨
      Linked s m ∧ s.next m d = some x ∧ x ∈ L ∧ x ≠ l := by
  obtain ⟨hin,hil⟩ := link_next hw hp hfresh hready
  have hnext : s.next p c = some l := next_of_plain hold
  have hpl : Linked s p := h.live p hp c l hold
  rcases (link_linked h hw hold hp hl hfresh hready m).mp hm with hm | rfl | rfl
  · rcases hw.next_cases rfl hx with ⟨hmp,hdc,rfl⟩ | ⟨he,hx⟩
    · exact .inl ⟨hmp,hdc,rfl⟩
    · refine .inr (.inr (.inr ⟨hm,hx,h.closed m (h.linked_mem hm) d x hx,?_⟩))
      rintro rfl
      exact he (h.single m p d c x hm hpl hx hnext)
  · rcases eq_or_other (s.side key m) d with rfl | rfl
    · exact .inr (.inl ⟨rfl,rfl,some.inj (hx.symm.trans hin)⟩)
    · exact .inr (.inr (.inl ⟨rfl,rfl,some.inj (hx.symm.trans hil)⟩))
  · rw [State.next,hfresh.leaf_edge hw hp] at hx
    cases hx

/-- The new internal node is as it should be. -/
theorem link_added : Added (insert i (insert n L)) s' i := by
  obtain ⟨hin,hil⟩ := link_next hw hp hfresh hready
  have hlL := h.closed p hp c l (next_of_plain hold)
  have hlinked := link_linked h hw hold hp hl hfresh hready
  refine ⟨by rw [hw.made]; exact hfresh.internal.2,?_,.inr ?_,(hlinked i).mpr (.inr (.inl rfl)),
    ?_,?_,?_⟩
  · intro d x hx
    rcases eq_or_other (s.side key i) d with rfl | rfl
    · rw [some.inj (hx.symm.trans hin)]
      exact Set.mem_insert_of_mem _ (Set.mem_insert _ _)
    · rw [some.inj (hx.symm.trans hil)]
      exact Set.mem_insert_of_mem _ (Set.mem_insert_of_mem _ hlL)
  · intro d
    rcases eq_or_other (s.side key i) d with rfl | rfl
    · simp [hin]
    · simp [hil]
  · intro d
    rw [hfresh.internal_edge hw hp]
    rcases eq_or_other (s.side key i) d with rfl | rfl
    · rw [hready.leaf]
      exact ⟨rfl,rfl⟩
    · rw [hready.other]
      exact ⟨rfl,rfl⟩
  · intro hlevel x hx
    rw [hw.node] at hlevel ⊢
    rw [side_inf hlevel] at hil
    rw [some.inj (hx.symm.trans hil)]
    exact fun hfin => hlevel (hready.level.mpr hfin)
  · intro hend
    have hnone := hend.2 (s.side key i)
    rw [hin] at hnone
    cases hnone

/-- `put` or `insert` links its nodes in the place of a leaf on the search path of the key, and
the payload is registered. -/
theorem Core.link (hon : On s key p) (hc : c = s.side key p)
    (hcommitted : s'.committed = s.committed ∪ {n}) (hretired : s'.retired = s.retired) :
    Core (insert i (insert n L)) s' := by
  obtain ⟨hin,hil⟩ := link_next hw hp hfresh hready
  have hlinked := link_linked h hw hold hp hl hfresh hready
  have hnext : s.next p c = some l := next_of_plain hold
  have hpl : Linked s p := h.live p hp c l hold
  have hlL := h.closed p hp c l hnext
  have hisleaf := redirect_is_leaf hw hold rfl
  have hleaves : ∀ m, Leaf s' m ↔ Leaf s m ∨ m = n := by
    intro m
    rw [leaf_iff,leaf_iff,hlinked,hisleaf]
    constructor
    · rintro ⟨hm | rfl | rfl,hend⟩
      · exact .inl ⟨hm,hend⟩
      · have hnone := hend.2 (s.side key m)
        rw [State.next,hready.leaf] at hnone
        cases hnone
      · exact .inr rfl
    · rintro (⟨hm,hend⟩ | rfl)
      · exact ⟨.inl hm,hend⟩
      · exact ⟨.inr (.inr rfl),hfresh.level,fun d => by rw [State.next,hfresh.edges d]⟩
  obtain ⟨hdurable,hlogged⟩ := h.registers (X := ∅) (M := insert i (insert n L)) hcommitted
    (hretired.trans (Finset.union_empty _).symm) (by simpa using hfresh.leaf.1) (by simp)
    (fun m hm => Set.mem_insert_of_mem _ (Set.mem_insert_of_mem _ hm)) (by simpa using hleaves)
  have hsides : ∀ k, On s' k p → c = s.side k p → On s' k i := by
    intro k hkp hkc
    refine Path.snoc hkp ?_ hw.next_self
    rw [hw.turns]
    exact hkc
  refine h.redirect hw hp hold rfl rfl ?_ (fun hf => by cases hf) ?_
    (fun m hm => Set.mem_insert_of_mem _ (Set.mem_insert_of_mem _ hm)) (Set.mem_insert _ _) ?_
    (leaf_parent hw hold rfl hl hpl) (fun m _ hm => .inl ((hlinked m).mpr (.inl hm))) ?_ ?_
    hdurable hlogged
  · rintro rfl
    obtain ⟨m,hm,-⟩ := h.first
    rw [hl .left] at hm
    cases hm
  · exact fun hlevel => ⟨fun hi => hlevel (hready.level.mp hi),rfl⟩
  · intro m hm hmL
    rcases Set.mem_insert_iff.mp hm with rfl | hm
    · exact link_added h hw hold hp hl hfresh hready
    · rcases Set.mem_insert_iff.mp hm with rfl | hm
      · exact hfresh.added_leaf hw hp ((hlinked m).mpr (.inr (.inr rfl)))
      · exact absurd hm hmL
  · intro a b c1 d1 x ha hb hax hbx
    have hax := link_edges h hw hold hp hl hfresh hready ha hax
    have hbx := link_edges h hw hold hp hl hfresh hready hb hbx
    have hsingle := h.single a b c1 d1 x
    have hi := hfresh.internal.1
    have hn := hfresh.leaf.1
    have hne := hfresh.ne
    grind
  · intro m hm
    rcases (hleaves m).mp hm with hm | rfl
    · rcases leaf_on hw hold rfl hl (h.ordered m hm) with hm' | ⟨rfl,hp',hc'⟩
      · exact hm'
      · refine Path.snoc (hsides _ hp' hc') ?_ hil
        rw [hw.turns]
        exact (hready.sides hm.2.1).symm
    · rw [hfresh.key]
      have hp' : On s' key p := by
        rcases leaf_on hw hold rfl hl hon with hp' | ⟨rfl,-⟩
        · exact hp'
        · rw [hl c] at hnext
          cases hnext
      refine Path.snoc (hsides key hp' hc) ?_ hin
      rw [hw.turns]
      rfl

end Link

section Replace
variable (h : Core L s) (hw : Writes s s' p c (.plain n)) (hold : s.edge p c = .plain l) (hp : p ∈ L)
  (hl : IsLeaf s l) (hfresh : Fresh L s key i n)
include h hw hold hp hl hfresh

theorem replace_linked : ∀ m, Linked s' m ↔ Linked s m ∧ m ≠ l ∨ m = n := by
  have hnext : s.next p c = some l := next_of_plain hold
  have hpl : Linked s p := h.live p hp c l hold
  have hn' : Linked s' n := Reach.snoc (leaf_parent hw hold rfl hl.2 hpl) hw.next_self
  intro m
  constructor
  · intro hm
    refine Path.mem (L := { m | Linked s m ∧ m ≠ l ∨ m = n }) hm (.inl ⟨Library.Path.refl _,?_⟩) ?_
    · rintro rfl
      exact h.rootLevel.1 hl.1
    · rintro b hb d x - hx
      rcases hb with ⟨hb,-⟩ | rfl
      · rcases hw.next_cases rfl hx with ⟨-,-,rfl⟩ | ⟨he,hx⟩
        · exact .inr rfl
        · refine .inl ⟨Reach.snoc hb hx,?_⟩
          rintro rfl
          exact he (h.single b p d c x hb hpl hx hnext)
      · rw [State.next,hfresh.leaf_edge hw hp] at hx
        cases hx
  · rintro (⟨hm,hml⟩ | rfl)
    · rcases leaf_path hw hold rfl hl.2 hm with hm' | ⟨rfl,-⟩
      · exact hm'
      · exact absurd rfl hml
    · exact hn'

/-- `put` links its leaf in the place of the one with the same key; the payload of the one is
registered, that of the other retired. -/
theorem Core.replace (hkey : (s.node l).key = key) (hcommitted : s'.committed = s.committed ∪ {n})
    (hretired : s'.retired = s.retired ∪ {l}) : Core (insert n L) s' := by
  have hlinked := replace_linked h hw hold hp hl hfresh
  have hedges := hfresh.leaf_edge hw hp
  have hnext : s.next p c = some l := next_of_plain hold
  have hpl : Linked s p := h.live p hp c l hold
  have hlL := h.closed p hp c l hnext
  have hnl : n ≠ l := fun he => hfresh.leaf.1 (he ▸ hlL)
  have hisleaf := redirect_is_leaf hw hold rfl
  have hleaves : ∀ m, Leaf s' m ↔ Leaf s m ∧ m ≠ l ∨ m = n := by
    intro m
    rw [leaf_iff,leaf_iff,hlinked,hisleaf]
    constructor
    · rintro ⟨⟨hm,hml⟩ | rfl,hend⟩
      · exact .inl ⟨⟨hm,hend⟩,hml⟩
      · exact .inr rfl
    · rintro (⟨⟨hm,hend⟩,hml⟩ | rfl)
      · exact ⟨.inl ⟨hm,hml⟩,hend⟩
      · exact ⟨.inr rfl,hfresh.level,fun d => by rw [State.next,hfresh.edges d]⟩
  obtain ⟨hdurable,hlogged⟩ := h.registers (M := insert n L) hcommitted hretired
    (by simpa using ⟨hfresh.leaf.1,hnl⟩) (by simpa using hlL) (Set.subset_insert n L)
    (by simpa using hleaves)
  refine h.redirect hw hp hold rfl rfl ?_ (fun hf => by cases hf) (fun hinf => absurd hl.1 hinf)
    (Set.subset_insert n L) (Set.mem_insert n L) ?_ (leaf_parent hw hold rfl hl.2 hpl) ?_ ?_ ?_
    hdurable hlogged
  · rintro rfl
    exact h.rootLevel.2 hl.1
  · intro m hm hmL
    rcases Set.mem_insert_iff.mp hm with rfl | hm
    · exact hfresh.added_leaf hw hp ((hlinked m).mpr (.inr rfl))
    · exact absurd hm hmL
  · intro m _ hm
    by_cases hml : m = l
    · refine .inr fun d x hx => ?_
      have hnone := hl.2 d
      rw [State.next,← hml,hx] at hnone
      cases hnone
    · exact .inl ((hlinked m).mpr (.inl ⟨hm,hml⟩))
  · have hpointers : ∀ a d x, Linked s' a → s'.next a d = some x →
        a = p ∧ d = c ∧ x = n ∨ Linked s a ∧ s.next a d = some x ∧ x ∈ L := by
      intro a d x ha hax
      rcases (hlinked a).mp ha with ⟨ha,-⟩ | rfl
      · rcases hw.next_cases rfl hax with ⟨hap,hdc,rfl⟩ | ⟨-,hax⟩
        · exact .inl ⟨hap,hdc,rfl⟩
        · exact .inr ⟨ha,hax,h.closed a (h.linked_mem ha) d x hax⟩
      · rw [State.next,hedges d] at hax
        cases hax
    intro a b c1 d1 x ha hb hax hbx
    rcases hpointers a c1 x ha hax with ⟨ha1,ha2,rfl⟩ | ⟨ha,hax,hxL⟩
    · rcases hpointers b d1 x hb hbx with ⟨hb1,hb2,-⟩ | ⟨-,-,hxL⟩
      · exact ⟨ha1.trans hb1.symm,ha2.trans hb2.symm⟩
      · exact absurd hxL hfresh.leaf.1
    · rcases hpointers b d1 x hb hbx with ⟨-,-,rfl⟩ | ⟨hb,hbx,-⟩
      · exact absurd hxL hfresh.leaf.1
      · exact h.single a b c1 d1 x ha hb hax hbx
  · intro m hm
    rcases (hleaves m).mp hm with ⟨hm,hml⟩ | rfl
    · rcases leaf_on hw hold rfl hl.2 (h.ordered m hm) with hm' | ⟨rfl,-⟩
      · exact hm'
      · exact absurd rfl hml
    · have hon := h.ordered l ⟨Reach.snoc hpl hnext,hl⟩
      rw [hkey] at hon
      rw [hfresh.key]
      rcases leaf_on hw hold rfl hl.2 hon with hon' | ⟨-,hp',hc⟩
      · rcases (hlinked l).mp hon'.reach with ⟨-,hll⟩ | hln
        · exact absurd rfl hll
        · exact absurd hln.symm hnl
      · refine Path.snoc hp' ?_ hw.next_self
        rw [hw.turns]
        exact hc

end Replace

end Montage.NatarajanTree
