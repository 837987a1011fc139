import Montage.HTMvEBTree.Insert

namespace Montage.HTMvEBTree
open Library.Clusters Function Option

variable {kMap : KMap} {t summary : Tree} {clusters : Nat → Tree} {min max : Option Nat}
  {S : Set Nat} {a b k u x : Nat}

def Deletes (kMap : KMap) (k : Nat) (S : Set Nat) (t : Tree) (x : Nat) : Prop :=
  ∃ t' erased, t.del kMap x = some (t',erased) ∧ t'.Rep kMap k (S \ {x}) ∧
    (erased = true ↔ x ∈ S)

theorem deletes_absent (hrep : t.Rep kMap k S) (habsent : x ∉ S)
    (hdel : t.del kMap x = some (t,false)) : Deletes kMap k S t x := by
  refine ⟨t,false,hdel,?_,by simp [habsent]⟩
  rwa [Set.sdiff_singleton_eq_self habsent]

theorem Bounds.outside (h : Bounds k S min max) (hx : (above x max || below x min) = true) :
    x ∉ S := by
  intro hmem
  rw [Bool.or_eq_true] at hx
  rcases hx with hx | hx
  · cases max with
    | none =>
      have hempty : S = ∅ := h.greatest
      rw [hempty] at hmem
      exact hmem
    | some b =>
      have hgreatest : IsGreatest S b := h.greatest
      have hle := hgreatest.2 hmem
      simp only [above,decide_eq_true_eq] at hx
      omega
  · cases min with
    | none => cases hx
    | some a =>
      have hleast : IsLeast S a := h.least
      have hle := hleast.2 hmem
      simp only [below,decide_eq_true_eq] at hx
      omega

theorem Bounds.inside (h : Bounds k S min max) (hx : ¬ (above x max || below x min) = true) :
    ∃ a b, min = some a ∧ max = some b ∧ IsLeast S a ∧ IsGreatest S b ∧ a ≤ x ∧ x ≤ b := by
  cases max with
  | none => exact absurd rfl hx
  | some b =>
    have hgreatest : IsGreatest S b := h.greatest
    cases min with
    | none =>
      have hempty : S = ∅ := h.least
      rw [hempty] at hgreatest
      exact absurd hgreatest.1 (Set.notMem_empty b)
    | some a =>
      simp only [above,below,Bool.or_eq_true,decide_eq_true_eq,not_or] at hx
      exact ⟨a,b,rfl,rfl,h.least,hgreatest,by omega,by omega⟩

theorem Bounds.eq_singleton (hleast : IsLeast S a) (hgreatest : IsGreatest S a) : S = {a} := by
  ext y
  constructor
  · intro hy
    exact le_antisymm (hgreatest.2 hy) (hleast.2 hy)
  · rintro rfl
    exact hleast.1

theorem base_deletes (hrep : (Tree.base min max).Rep kMap k S) (hx : x < 2 ^ k) :
    Deletes kMap k S (.base min max) x := by
  obtain rfl : k = 1 := hrep.1
  have hx2 : x < 2 := hx
  have hbounds := hrep.2
  by_cases hout : (above x max || below x min) = true
  · refine deletes_absent hrep (hbounds.outside hout) ?_
    rw [Tree.del,if_pos hx2,if_pos hout]
  · obtain ⟨a,b,rfl,rfl,hleast,hgreatest,hax,hxb⟩ := hbounds.inside hout
    have hb : b < 2 := hbounds.within b hgreatest.1
    rw [Deletes,Tree.del,if_pos hx2,if_neg hout]
    by_cases hab : some a = some b
    · -- the only element is between the bounds
      cases hab
      obtain rfl : a = x := le_antisymm hax hxb
      rw [if_pos rfl,if_pos rfl]
      refine ⟨_,true,rfl,⟨rfl,?_⟩,by simp [hleast.1]⟩
      rw [Bounds.eq_singleton hleast hgreatest,Set.sdiff_self]
      exact bounds_empty
    · have hne : a ≠ b := fun h => hab (by rw [h])
      obtain rfl : a = 0 := by omega
      obtain rfl : b = 1 := by omega
      have hS : S = {0,1} := by
        ext y
        constructor
        · intro hy
          have : y < 2 := hbounds.within y hy
          rw [Set.mem_insert_iff,Set.mem_singleton_iff]
          omega
        · rintro (rfl | rfl)
          · exact hleast.1
          · exact hgreatest.1
      rw [if_neg hab]
      have hmem : x ∈ S := by
        rw [hS,Set.mem_insert_iff,Set.mem_singleton_iff]
        omega
      have hother : S \ {x} = {1 - x} := by
        rw [hS]
        ext y
        simp only [Set.mem_sdiff,Set.mem_insert_iff,Set.mem_singleton_iff]
        omega
      refine ⟨_,true,rfl,⟨rfl,?_⟩,by simp [hmem]⟩
      rw [hother]
      exact bounds_singleton (by omega)

/-- What is deleted below a node whose least element is `a`: the element itself, or the next one if
that is `a`. -/
structure Releases (k : Nat) (S : Set Nat) (a b x newMin released : Nat) : Prop where
  within : ∀ y ∈ S, y < 2 ^ k
  least : IsLeast (S \ {x}) newMin
  greatest : IsGreatest S b
  distinct : a ≠ b
  others : rest (S \ {x}) (some newMin) = rest S (some a) \ {released}
  bounded : released < 2 ^ k
  member : released ∈ rest S (some a) ↔ x ∈ S
  /-- The greatest element stays, unless it is the one that goes on. -/
  stays : released ≠ b → b ≠ x

theorem second_least (hrep : (Tree.node (2 ^ k) (some a) max summary clusters).Rep kMap k S)
    (hnonempty : (rest S (some a)).Nonempty) :
    ∃ x, Tree.second (divideNode (2 ^ k)) summary clusters = some x ∧
      IsLeast (rest S (some a)) x := by
  obtain ⟨-,hbounds,hsummary,hclusters⟩ := hrep
  have hpos : 0 < 2 ^ (k / 2) := Nat.two_pow_pos _
  have hfirst := hsummary.bounds.least
  cases hmin : summary.min with
  | none =>
    rw [hmin] at hfirst
    have hempty := (heads_eq_empty hpos).mp hfirst
    exact absurd hempty hnonempty.ne_empty
  | some h =>
    rw [hmin] at hfirst
    have hhead : IsLeast (heads (2 ^ (k / 2)) (rest S (some a))) h := hfirst
    have hcluster := (hclusters h (hsummary.bounds.within h hhead.1))
    have hoffset := hcluster.bounds.least
    cases hl : (clusters h).min with
    | none =>
      have hempty := hcluster.min_none.mp hl
      have hne := mem_heads.mp hhead.1
      exact absurd hempty hne.ne_empty
    | some l =>
      rw [hl] at hoffset
      refine ⟨h * 2 ^ (k / 2) + l,?_,isLeast_index hpos hhead hoffset⟩
      rw [Tree.second,hmin,divide_pow]
      change (clusters h).min.bind _ = _
      rw [hl]
      rfl

theorem releases_least {x' : Nat} (hwithin : ∀ y ∈ S, y < 2 ^ k) (hleast : IsLeast S a)
    (hgreatest : IsGreatest S b) (hab : a ≠ b) (hsecond : IsLeast (rest S (some a)) x') :
    Releases k S a b a x' x' := by
  have hx' : x' ∈ S ∧ some x' ≠ some a := hsecond.1
  refine ⟨hwithin,⟨⟨hx'.1,?_⟩,?_⟩,hgreatest,hab,rest_erase_least,hwithin x' hx'.1,?_,fun _ => hab.symm⟩
  · intro h
    exact hx'.2 (by rw [Set.mem_singleton_iff.mp h])
  · rintro y ⟨hy,hne⟩
    exact hsecond.2 ⟨hy,by simpa using hne⟩
  · exact ⟨fun _ => hleast.1,fun _ => hsecond.1⟩

theorem releases_other (hwithin : ∀ y ∈ S, y < 2 ^ k) (hleast : IsLeast S a)
    (hgreatest : IsGreatest S b) (hab : a ≠ b) (hne : x ≠ a) (hx : x < 2 ^ k) : Releases k S a b x a x := by
  refine ⟨hwithin,⟨⟨hleast.1,fun h => hne (Set.mem_singleton_iff.mp h).symm⟩,?_⟩,hgreatest,
    hab,rest_erase_other,hx,?_,fun h => h.symm⟩
  · rintro y ⟨hy,-⟩
    exact hleast.2 hy
  · exact ⟨fun h => h.1,fun h => ⟨h,by simpa using hne⟩⟩

variable {newMin released : Nat} {newMax : Option Nat}

theorem Releases.bounds (h : Releases k S a b x newMin released)
    (hstays : released ≠ b → newMax = some b)
    (hgoes : released = b → (rest S (some a) \ {released} = ∅ ∧ newMax = some newMin) ∨
      ∃ c, IsGreatest (rest S (some a) \ {released}) c ∧ newMax = some c) :
    Bounds k (S \ {x}) (some newMin) newMax := by
  have hwithin : ∀ y ∈ S \ {x}, y < 2 ^ k := fun y hy => h.within y hy.1
  by_cases hb : released = b
  · rcases hgoes hb with ⟨hempty,rfl⟩ | ⟨c,hc,rfl⟩
    · refine ⟨hwithin,h.least,h.least.1,?_⟩
      intro y hy
      by_contra hlt
      have hmem : y ∈ rest (S \ {x}) (some newMin) := by
        refine ⟨hy,?_⟩
        intro heq
        cases heq
        exact hlt le_rfl
      rw [h.others,hempty] at hmem
      exact hmem
    · rw [← h.others] at hc
      refine ⟨hwithin,h.least,hc.1.1,?_⟩
      intro y hy
      by_cases heq : y = newMin
      · rw [heq]
        exact h.least.2 hc.1.1
      · exact hc.2 ⟨hy,by simpa using heq⟩
  · rw [hstays hb]
    refine ⟨hwithin,h.least,⟨h.greatest.1,?_⟩,fun y hy => h.greatest.2 hy.1⟩
    exact h.stays hb

theorem Releases.others_greatest (h : Releases k S a b x newMin released) :
    IsGreatest (rest S (some a)) b := by
  refine ⟨⟨h.greatest.1,?_⟩,fun y hy => h.greatest.2 hy.1⟩
  intro heq
  exact h.distinct (some.inj heq).symm

theorem exists_releases (hrep : (Tree.node (2 ^ k) (some a) (some b) summary clusters).Rep kMap k S)
    (hab : a ≠ b) (hx : x < 2 ^ k) :
    ∃ released newMin,
      (if some x = some a then Tree.second (divideNode (2 ^ k)) summary clusters else some x) =
        some released ∧
      (if some x = some a then some released else some a) = some newMin ∧
      Releases k S a b x newMin released := by
  have hleast : IsLeast S a := hrep.2.1.least
  have hgreatest : IsGreatest S b := hrep.2.1.greatest
  by_cases hxa : x = a
  · subst hxa
    have hb : b ∈ rest S (some x) := ⟨hgreatest.1,fun heq => hab (some.inj heq).symm⟩
    obtain ⟨x',hsecond,hnext⟩ := second_least hrep ⟨b,hb⟩
    rw [if_pos rfl]
    exact ⟨x',x',hsecond,if_pos rfl,releases_least hrep.2.1.within hleast hgreatest hab hnext⟩
  · have hne : some x ≠ some a := fun heq => hxa (some.inj heq)
    rw [if_neg hne]
    exact ⟨x,a,rfl,if_neg hne,releases_other hrep.2.1.within hleast hgreatest hab hxa hx⟩

/-- The cluster is empty now: the new maximum comes from the last cluster that is not. -/
theorem max_of_others {summary' : Tree} {clusters' : Nat → Tree} {R : Set Nat}
    (hsummary : summary'.Rep kMap ((k + 1) / 2) (heads (2 ^ (k / 2)) R))
    (hclusters : ∀ h < 2 ^ ((k + 1) / 2), (clusters' h).Rep kMap (k / 2) (part (2 ^ (k / 2)) h R)) :
    ∃ newMax, Tree.maxOfOthers (divideNode (2 ^ k)) released (some newMin) (some b) summary'
        clusters' = some newMax ∧
      (released ≠ b → newMax = some b) ∧
      (released = b → (R = ∅ ∧ newMax = some newMin) ∨ ∃ c, IsGreatest R c ∧ newMax = some c) := by
  have hpos : 0 < 2 ^ (k / 2) := Nat.two_pow_pos _
  by_cases hb : released = b
  · rw [Tree.maxOfOthers,if_pos (by rw [hb]),divide_pow]
    have hlast := hsummary.bounds.greatest
    cases hmax : summary'.max with
    | none =>
      rw [hmax] at hlast
      exact ⟨some newMin,rfl,fun h => absurd hb h,fun _ => .inl ⟨(heads_eq_empty hpos).mp hlast,rfl⟩⟩
    | some h =>
      rw [hmax] at hlast
      have hhead : IsGreatest (heads (2 ^ (k / 2)) R) h := hlast
      have hcluster := hclusters h (hsummary.bounds.within h hhead.1)
      have hoffset := hcluster.bounds.greatest
      cases hl : (clusters' h).max with
      | none =>
        rw [hl] at hoffset
        exact absurd hoffset (mem_heads.mp hhead.1).ne_empty
      | some l =>
        rw [hl] at hoffset
        refine ⟨some (h * 2 ^ (k / 2) + l),?_,fun h => absurd hb h,fun _ => .inr ⟨_,?_,rfl⟩⟩
        · simp only [hl]
          rfl
        · exact isGreatest_index hpos hhead hoffset
  · rw [Tree.maxOfOthers,if_neg (fun h => hb (some.inj h))]
    exact ⟨some b,rfl,fun _ => rfl,fun h => absurd h hb⟩

/-- The cluster has elements left: if the maximum was in it, it still has the greatest ones. -/
theorem max_of_cluster {cluster : Tree} {R : Set Nat} {h l : Nat} (hl : l < 2 ^ (k / 2))
    (hgreatest : h * 2 ^ (k / 2) + l = b → IsGreatest R b)
    (hcluster : cluster.Rep kMap (k / 2) (part (2 ^ (k / 2)) h R \ {l}))
    (hmin : cluster.min ≠ none) :
    ∃ newMax, Tree.maxOfCluster (divideNode (2 ^ k)) (h * 2 ^ (k / 2) + l) h (some b) cluster =
        some newMax ∧
      (h * 2 ^ (k / 2) + l ≠ b → newMax = some b) ∧
      (h * 2 ^ (k / 2) + l = b →
        ∃ c, IsGreatest (R \ {h * 2 ^ (k / 2) + l}) c ∧ newMax = some c) := by
  have hpos : 0 < 2 ^ (k / 2) := Nat.two_pow_pos _
  have hne : (part (2 ^ (k / 2)) h R \ {l}).Nonempty := by
    rw [Set.nonempty_iff_ne_empty]
    exact fun hempty => hmin (hcluster.min_none.mpr hempty)
  by_cases hb : h * 2 ^ (k / 2) + l = b
  · rw [Tree.maxOfCluster,if_pos (by rw [hb]),divide_pow]
    have hoffset := hcluster.bounds.greatest
    cases hmax : cluster.max with
    | none =>
      rw [hmax] at hoffset
      exact absurd hoffset hne.ne_empty
    | some m =>
      rw [hmax,← part_erase hl] at hoffset
      have hR := hgreatest hb
      rw [← hb] at hR
      have hhead := isGreatest_head hl hR
      rw [← heads_erase hl hne] at hhead
      exact ⟨some (h * 2 ^ (k / 2) + m),rfl,fun h => absurd hb h,
        fun _ => ⟨_,isGreatest_index hpos hhead hoffset,rfl⟩⟩
  · rw [Tree.maxOfCluster,if_neg (fun h => hb (some.inj h))]
    exact ⟨some b,rfl,fun _ => rfl,fun h => absurd h hb⟩

section
variable (ihSummary : ∀ k S x, summary.Rep kMap k S → x < 2 ^ k → Deletes kMap k S summary x)
include ihSummary

theorem clusters_delete (ihClusters : ∀ h k S x, (clusters h).Rep kMap k S → x < 2 ^ k →
      Deletes kMap k S (clusters h) x)
    (hrep : (Tree.node (2 ^ k) (some a) (some b) summary clusters).Rep kMap k S)
    (hrel : Releases k S a b x newMin released) :
    ∃ cluster erased,
      (clusters (released / 2 ^ (k / 2))).del kMap (released % 2 ^ (k / 2)) =
        some (cluster,erased) ∧
      (erased = true ↔ x ∈ S) ∧
      (cluster.min = none → ∃ summary' b' newMax,
        summary.del kMap (released / 2 ^ (k / 2)) = some (summary',b') ∧
        Tree.maxOfOthers (divideNode (2 ^ k)) released (some newMin) (some b) summary'
          (update clusters (released / 2 ^ (k / 2)) cluster) = some newMax ∧
        (Tree.node (2 ^ k) (some newMin) newMax summary'
          (update clusters (released / 2 ^ (k / 2)) cluster)).Rep kMap k (S \ {x})) ∧
      (cluster.min ≠ none → ∃ newMax,
        Tree.maxOfCluster (divideNode (2 ^ k)) released (released / 2 ^ (k / 2)) (some b) cluster =
          some newMax ∧
        (Tree.node (2 ^ k) (some newMin) newMax summary
          (update clusters (released / 2 ^ (k / 2)) cluster)).Rep kMap k (S \ {x})) := by
  obtain ⟨hh,hl,hsplit⟩ := split_number hrel.bounded
  have hclusterRep := hrep.2.2.2 _ hh
  generalize released / 2 ^ (k / 2) = h at *
  generalize released % 2 ^ (k / 2) = l at *
  subst hsplit
  obtain ⟨cluster,erased,hdel,hcluster,herased⟩ := ihClusters _ _ _ _ hclusterRep hl
  have hmember : l ∈ part (2 ^ (k / 2)) h (rest S (some a)) ↔ x ∈ S :=
    Iff.trans ⟨fun hmem => hmem.2,fun hmem => ⟨hl,hmem⟩⟩ hrel.member
  have hother : ∀ i, i ≠ h → part (2 ^ (k / 2)) i (rest (S \ {x}) (some newMin)) =
      part (2 ^ (k / 2)) i (rest S (some a)) := by
    intro i hi
    rw [hrel.others,part_erase_other hl hi]
  refine ⟨cluster,erased,hdel,herased.trans hmember,?_,?_⟩
  · intro hmin
    have hempty := hcluster.min_none.mp hmin
    obtain ⟨summary',b',hdelSummary,hsummary,-⟩ := ihSummary _ _ _ hrep.2.2.1 hh
    rw [← heads_erase_empty hl hempty,← hrel.others] at hsummary
    rw [← part_erase hl,← hrel.others] at hcluster
    obtain ⟨newMax,hmax,hstays,hgoes⟩ :=
      max_of_others hsummary (update_clusters hrep.2.2.2 hother hcluster)
    rw [hrel.others] at hgoes
    exact ⟨summary',b',newMax,hdelSummary,hmax,
      hrep.update (hrel.bounds hstays hgoes) hother hsummary hcluster⟩
  · intro hmin
    have hne : (part (2 ^ (k / 2)) h (rest S (some a)) \ {l}).Nonempty := by
      rw [Set.nonempty_iff_ne_empty]
      exact fun hempty => hmin (hcluster.min_none.mpr hempty)
    obtain ⟨newMax,hmax,hstays,hgoes⟩ :=
      max_of_cluster hl (fun _ => hrel.others_greatest) hcluster hmin
    have hsummary := hrep.2.2.1
    rw [← heads_erase hl hne,← hrel.others] at hsummary
    rw [← part_erase hl,← hrel.others] at hcluster
    exact ⟨newMax,hmax,
      hrep.update (hrel.bounds hstays fun hb => .inr (hgoes hb)) hother hsummary hcluster⟩

theorem node_deletes (ihClusters : ∀ h k S x, (clusters h).Rep kMap k S → x < 2 ^ k →
      Deletes kMap k S (clusters h) x)
    (hrep : (Tree.node u min max summary clusters).Rep kMap k S) (hx : x < 2 ^ k) :
    Deletes kMap k S (.node u min max summary clusters) x := by
  obtain ⟨⟨hk,rfl,hget⟩,hbounds,hsummary,hclusters⟩ := id hrep
  by_cases hout : (above x max || below x min) = true
  · refine deletes_absent hrep (hbounds.outside hout) ?_
    rw [Tree.del,if_pos hx,if_pos hout]
  · obtain ⟨a,b,rfl,rfl,hleast,hgreatest,hax,hxb⟩ := hbounds.inside hout
    rw [Deletes,Tree.del,if_pos hx,if_neg hout]
    by_cases hab : some a = some b
    · cases hab
      obtain rfl : a = x := le_antisymm hax hxb
      rw [if_pos rfl,if_pos rfl]
      have hS := Bounds.eq_singleton hleast hgreatest
      rw [hS,rest_singleton] at hsummary hclusters
      refine ⟨_,true,rfl,⟨⟨hk,rfl,hget⟩,?_⟩,by simp [hleast.1]⟩
      rw [hS,Set.sdiff_self,rest_empty]
      exact ⟨bounds_empty,hsummary,hclusters⟩
    · have hne : a ≠ b := fun h => hab (by rw [h])
      obtain ⟨released,newMin,hnext,hnewMin,hrel⟩ := exists_releases hrep hne hx
      obtain ⟨cluster,erased,hdel,herased,hempty,hleft⟩ :=
        clusters_delete ihSummary ihClusters hrep hrel
      obtain ⟨hh,-,-⟩ := split_number hrel.bounded
      rw [if_neg hab]
      simp only [hget,hnext,hnewMin]
      simp only [divide_pow,Nat.shiftRight_eq_div_pow,Nat.and_two_pow_sub_one_eq_mod]
      rw [if_pos hh,hdel]
      by_cases hmin : cluster.min = none
      · obtain ⟨summary',b',newMax,hdelSummary,hmax,hrep'⟩ := hempty hmin
        rw [divide_pow] at hmax
        refine ⟨_,erased,?_,hrep',herased⟩
        simp [hmin,hdelSummary,hmax]
      · obtain ⟨newMax,hmax,hrep'⟩ := hleft hmin
        rw [divide_pow] at hmax
        refine ⟨_,erased,?_,hrep',herased⟩
        simp [hmin,hmax]

end

theorem Tree.Rep.deletes (hrep : t.Rep kMap k S) (hx : x < 2 ^ k) : Deletes kMap k S t x := by
  induction t generalizing k S x with
  | base => exact base_deletes hrep hx
  | node _ _ _ _ _ ihSummary ihClusters =>
    exact node_deletes (fun _ _ _ => ihSummary) (fun h _ _ _ => ihClusters h) hrep hx

end Montage.HTMvEBTree
