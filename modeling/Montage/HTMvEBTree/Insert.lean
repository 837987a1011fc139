import Montage.HTMvEBTree.Represents

namespace Montage.HTMvEBTree
open Library.Clusters

variable {kMap : KMap} {junk : Tree → Nat → Bool} {t summary : Tree} {clusters : Nat → Tree}
  {min max : Option Nat} {S : Set Nat} {a k u x : Nat}

theorem raise_of_le {b : Nat} (h : x ≤ b) : raise x (some b) = some b := by
  have hnot : above x (some b) = false := by simpa [above] using h
  rw [raise,hnot]
  rfl

theorem Bounds.insert_below (h : Bounds k S (some a) max) (hx : x < a) :
    Bounds k (insert x S) (some x) (raise a max) := by
  have hleast : IsLeast S a := h.least
  cases max with
  | none =>
    have hempty : S = ∅ := h.greatest
    rw [hempty] at hleast
    exact absurd hleast.1 (Set.notMem_empty a)
  | some b =>
    have hgreatest : IsGreatest S b := h.greatest
    rw [raise_of_le (hgreatest.2 hleast.1)]
    refine ⟨?_,⟨Set.mem_insert x S,?_⟩,⟨Set.mem_insert_of_mem x hgreatest.1,?_⟩⟩
    · rintro y (rfl | hy)
      · exact lt_trans hx (h.within a hleast.1)
      · exact h.within y hy
    · rintro y (rfl | hy)
      · exact le_rfl
      · exact le_trans (le_of_lt hx) (hleast.2 hy)
    · rintro y (rfl | hy)
      · exact le_trans (le_of_lt hx) (hleast.2 hgreatest.1)
      · exact hgreatest.2 hy

theorem Bounds.insert_above (h : Bounds k S (some a) max) (hx : x < 2 ^ k) (hle : a ≤ x) :
    Bounds k (insert x S) (some a) (raise x max) := by
  have hleast : IsLeast S a := h.least
  refine ⟨?_,⟨Set.mem_insert_of_mem x hleast.1,?_⟩,?_⟩
  · rintro y (rfl | hy)
    · exact hx
    · exact h.within y hy
  · rintro y (rfl | hy)
    · exact hle
    · exact hleast.2 hy
  · cases max with
    | none =>
      have hempty : S = ∅ := h.greatest
      rw [hempty] at hleast
      exact absurd hleast.1 (Set.notMem_empty a)
    | some b =>
      have hgreatest : IsGreatest S b := h.greatest
      by_cases hxb : x ≤ b
      · rw [raise_of_le hxb]
        refine ⟨Set.mem_insert_of_mem x hgreatest.1,?_⟩
        rintro y (rfl | hy)
        · exact hxb
        · exact hgreatest.2 hy
      · have hraise : raise x (some b) = some x := by simp [raise,above,lt_of_not_ge hxb]
        rw [hraise]
        refine ⟨Set.mem_insert x S,?_⟩
        rintro y (rfl | hy)
        · exact le_rfl
        · exact le_trans (hgreatest.2 hy) (by omega)

theorem Bounds.mem_of_bound (h : Bounds k S min max) (hx : some x = min ∨ some x = max) : x ∈ S := by
  rcases hx with hx | hx
  · have hleast := h.least
    rw [← hx] at hleast
    exact hleast.1
  · have hgreatest := h.greatest
    rw [← hx] at hgreatest
    exact hgreatest.1

/-- What is inserted below a node whose least element is `a`: the element itself, or `a` if that is
greater. -/
structure Carries (k : Nat) (S : Set Nat) (a : Nat) (max : Option Nat) (x newMin carried : Nat) :
    Prop where
  bounds : Bounds k (insert x S) (some newMin) (raise carried max)
  others : rest (insert x S) (some newMin) = insert carried (rest S (some a))
  within : carried < 2 ^ k
  member : carried ∈ rest S (some a) ↔ x ∈ S

theorem Bounds.carries (h : Bounds k S (some a) max) (hx : x < 2 ^ k) (hne : x ≠ a) :
    Carries k S a max x (if x < a then x else a) (if x < a then a else x) := by
  have hleast : IsLeast S a := h.least
  by_cases hlt : x < a
  · rw [if_pos hlt,if_pos hlt]
    refine ⟨h.insert_below hlt,rest_insert_below hleast hlt,h.within a hleast.1,?_⟩
    constructor
    · intro ha
      exact absurd rfl ha.2
    · intro hxS
      exact absurd (hleast.2 hxS) (not_le.mpr hlt)
  · rw [if_neg hlt,if_neg hlt]
    refine ⟨h.insert_above hx (by omega),rest_insert_above hne,hx,?_⟩
    exact ⟨fun hr => hr.1,fun hxS => ⟨hxS,by simpa using hne⟩⟩

/-- What `insert` is to do: the flag says whether the element is new, unless the variable for it has
not been assigned. -/
def Inserts (kMap : KMap) (junk : Tree → Nat → Bool) (k : Nat) (S : Set Nat) (t : Tree) (x : Nat) :
    Prop :=
  ∃ t' b, t.insert kMap junk x = some (t',b) ∧ t'.Rep kMap k (insert x S) ∧
    (t.unassigned kMap x = false → (b = true ↔ x ∉ S)) ∧
    (t.unassigned kMap x = true → x ∉ S ∧ ∃ t0 x0, b = junk t0 x0)

theorem inserts_bound (hrep : t.Rep kMap k S) (hbound : some x = t.min ∨ some x = t.max)
    (hinsert : t.insert kMap junk x = some (t,false)) (hunassigned : t.unassigned kMap x = false) :
    Inserts kMap junk k S t x := by
  have hmem := hrep.bounds.mem_of_bound hbound
  refine ⟨t,false,hinsert,?_,?_,?_⟩
  · rwa [Set.insert_eq_of_mem hmem]
  · simp [hmem]
  · rw [hunassigned]
    exact fun h => (by cases h)

theorem inserts_first (t' : Tree) (hrep : t.Rep kMap k S) (hmin : t.min = none)
    (hinsert : t.insert kMap junk x = some (t',true)) (hrep' : t'.Rep kMap k {x})
    (hunassigned : t.unassigned kMap x = false) : Inserts kMap junk k S t x := by
  have hempty := hrep.min_none.mp hmin
  subst hempty
  refine ⟨t',true,hinsert,?_,?_,?_⟩
  · rwa [insert_empty_eq]
  · simp
  · rw [hunassigned]
    exact fun h => (by cases h)

theorem base_above (hbounds : Bounds 1 S (some a) max) (hx : x < 2)
    (hbound : ¬ (some x = some a ∨ some x = max)) (hlt : ¬ x < a) :
    x = 1 ∧ a = 0 ∧ max = some 0 ∧ x ∉ S := by
  have hne : x ≠ a := fun h => hbound (.inl (by rw [h]))
  have hleast : IsLeast S a := hbounds.least
  cases max with
  | none =>
    have hempty : S = ∅ := hbounds.greatest
    rw [hempty] at hleast
    exact absurd hleast.1 (Set.notMem_empty a)
  | some b =>
    have hgreatest : IsGreatest S b := hbounds.greatest
    have hb : b < 2 := hbounds.within b hgreatest.1
    have hxb : x ≠ b := fun h => hbound (.inr (by rw [h]))
    have hxone : x = 1 := by omega
    have hbzero : b = 0 := by omega
    refine ⟨hxone,by omega,by rw [hbzero],?_⟩
    intro hxS
    have := hgreatest.2 hxS
    omega

theorem base_inserts (hrep : (Tree.base min max).Rep kMap k S) (hx : x < 2 ^ k) :
    Inserts kMap junk k S (.base min max) x := by
  obtain rfl : k = 1 := hrep.1
  have hx2 : x < 2 := hx
  have hbounds := hrep.2
  by_cases hbound : some x = min ∨ some x = max
  · refine inserts_bound hrep hbound ?_ ?_
    · cases min <;> rw [Tree.insert,if_pos hx2,if_pos hbound]
    · simp only [Tree.unassigned,decide_eq_false_iff_not]
      rintro ⟨rfl,rfl,rfl⟩
      simp at hbound
  · cases min with
    | none =>
      refine inserts_first (.base (some x) (some x)) hrep rfl ?_ ⟨rfl,bounds_singleton hx⟩ ?_
      · rw [Tree.insert,if_pos hx2,if_neg hbound]
      · simp [Tree.unassigned]
    | some a =>
      have hleast : IsLeast S a := hbounds.least
      by_cases hlt : x < a
      · have hnew : x ∉ S := fun h => absurd (hleast.2 h) (not_le.mpr hlt)
        have ha : a < 2 := hbounds.within a hleast.1
        have hassigned : (Tree.base (some a) max).unassigned kMap x = false := by
          simp only [Tree.unassigned,decide_eq_false_iff_not]
          rintro ⟨rfl,-,-⟩
          omega
        refine ⟨.base (some x) (raise a max),true,?_,⟨rfl,hbounds.insert_below hlt⟩,?_,?_⟩
        · rw [Tree.insert,if_pos hx2,if_neg hbound,if_pos hlt]
        · simp [hnew]
        · rw [hassigned]
          exact fun h => (by cases h)
      · obtain ⟨hone,hzero,hmax,hnew⟩ := base_above hbounds hx2 hbound hlt
        refine ⟨.base (some a) (raise x max),junk (.base (some a) max) x,?_,
          ⟨rfl,hbounds.insert_above hx (by omega)⟩,?_,?_⟩
        · rw [Tree.insert,if_pos hx2,if_neg hbound,if_neg hlt]
        · subst hone hzero hmax
          intro h
          simp [Tree.unassigned] at h
        · intro _
          exact ⟨hnew,_,_,rfl⟩

theorem cluster_inserts {newMin carried : Nat}
    (hrep : (Tree.node u (some a) max summary clusters).Rep kMap k S)
    (hcarries : Carries k S a max x newMin carried)
    (hcluster : Inserts kMap junk (k / 2) (part (2 ^ (k / 2)) (carried / 2 ^ (k / 2)) (rest S (some a)))
      (clusters (carried / 2 ^ (k / 2))) (carried % 2 ^ (k / 2)))
    (hmin : (clusters (carried / 2 ^ (k / 2))).min ≠ none) :
    ∃ cluster b, (clusters (carried / 2 ^ (k / 2))).insert kMap junk (carried % 2 ^ (k / 2)) =
        some (cluster,b) ∧
      (Tree.node u (some newMin) (raise carried max) summary
        (Function.update clusters (carried / 2 ^ (k / 2)) cluster)).Rep kMap k (insert x S) ∧
      ((clusters (carried / 2 ^ (k / 2))).unassigned kMap (carried % 2 ^ (k / 2)) = false →
        (b = true ↔ x ∉ S)) ∧
      ((clusters (carried / 2 ^ (k / 2))).unassigned kMap (carried % 2 ^ (k / 2)) = true →
        x ∉ S ∧ ∃ t0 x0, b = junk t0 x0) := by
  obtain ⟨hh,hl,hsplit⟩ := split_number hcarries.within
  have hclusterRep := hrep.2.2.2 _ hh
  generalize carried / 2 ^ (k / 2) = h at *
  generalize carried % 2 ^ (k / 2) = l at *
  subst hsplit
  have hmember : l ∈ part (2 ^ (k / 2)) h (rest S (some a)) ↔ x ∈ S :=
    Iff.trans ⟨fun hmem => hmem.2,fun hmem => ⟨hl,hmem⟩⟩ hcarries.member
  have hpart := part_insert (S := rest S (some a)) (h := h) hl
  have hheads := heads_insert (S := rest S (some a)) (h := h) hl
  -- the summary has this cluster
  have hhead : h ∈ heads (2 ^ (k / 2)) (rest S (some a)) := by
    rw [mem_heads,Set.nonempty_iff_ne_empty]
    exact fun hempty => hmin (hclusterRep.min_none.mpr hempty)
  obtain ⟨cluster,b,hinsert,hnew,hassigned,hunassigned⟩ := hcluster
  rw [hmember] at hassigned hunassigned
  refine ⟨cluster,b,hinsert,hrep.update hcarries.bounds ?_ ?_ ?_,hassigned,hunassigned⟩
  · intro i hi
    rw [hcarries.others,part_insert_other hl hi]
  · rw [hcarries.others,hheads,Set.insert_eq_of_mem hhead]
    exact hrep.2.2.1
  · rw [hcarries.others,hpart]
    exact hnew

theorem empty_cluster_inserts {newMin carried : Nat}
    (hrep : (Tree.node u (some a) max summary clusters).Rep kMap k S)
    (hcarries : Carries k S a max x newMin carried)
    (hsummary : Inserts kMap junk ((k + 1) / 2) (heads (2 ^ (k / 2)) (rest S (some a))) summary
      (carried / 2 ^ (k / 2)))
    (hmin : (clusters (carried / 2 ^ (k / 2))).min = none) :
    x ∉ S ∧ ∃ summary' b cluster,
      summary.insert kMap junk (carried / 2 ^ (k / 2)) = some (summary',b) ∧
      (clusters (carried / 2 ^ (k / 2))).insertToEmptyVEB (carried % 2 ^ (k / 2)) = some cluster ∧
      (Tree.node u (some newMin) (raise carried max) summary'
        (Function.update clusters (carried / 2 ^ (k / 2)) cluster)).Rep kMap k (insert x S) := by
  obtain ⟨hh,hl,hsplit⟩ := split_number hcarries.within
  have hclusterRep := hrep.2.2.2 _ hh
  generalize carried / 2 ^ (k / 2) = h at *
  generalize carried % 2 ^ (k / 2) = l at *
  subst hsplit
  have hpart := part_insert (S := rest S (some a)) (h := h) hl
  have hheads := heads_insert (S := rest S (some a)) (h := h) hl
  have hempty := hclusterRep.min_none.mp hmin
  have hnew : x ∉ S := by
    rw [← hcarries.member]
    intro hmem
    have hmemPart : l ∈ part (2 ^ (k / 2)) h (rest S (some a)) := ⟨hl,hmem⟩
    rw [hempty] at hmemPart
    exact hmemPart
  rw [hempty] at hclusterRep hpart
  obtain ⟨summary',b,hinsert,hsummary',-⟩ := hsummary
  obtain ⟨cluster,hcluster,hcluster'⟩ := hclusterRep.insert_to_empty hl
  refine ⟨hnew,summary',b,cluster,hinsert,hcluster,hrep.update hcarries.bounds ?_ ?_ ?_⟩
  · intro i hi
    rw [hcarries.others,part_insert_other hl hi]
  · rw [hcarries.others,hheads]
    exact hsummary'
  · rw [hcarries.others,hpart,insert_empty_eq]
    exact hcluster'

theorem node_inserts
    (ihSummary : ∀ k S x, summary.Rep kMap k S → x < 2 ^ k → Inserts kMap junk k S summary x)
    (ihClusters : ∀ h k S x, (clusters h).Rep kMap k S → x < 2 ^ k →
      Inserts kMap junk k S (clusters h) x)
    (hrep : (Tree.node u min max summary clusters).Rep kMap k S) (hx : x < 2 ^ k) :
    Inserts kMap junk k S (.node u min max summary clusters) x := by
  obtain ⟨⟨hk,rfl,hget⟩,hbounds,hsummary,hclusters⟩ := id hrep
  by_cases hbound : some x = min ∨ some x = max
  · refine inserts_bound hrep hbound ?_ ?_
    · cases min <;> rw [Tree.insert,if_pos hx,if_pos hbound]
    · cases min <;> rw [Tree.unassigned,if_pos hbound]
  · cases min with
    | none =>
      refine inserts_first (.node (2 ^ k) (some x) (some x) summary clusters) hrep rfl ?_ ?_ ?_
      · rw [Tree.insert,if_pos hx,if_neg hbound]
      · have hempty := hrep.min_none.mp rfl
        subst hempty
        rw [rest_empty] at hsummary hclusters
        exact ⟨⟨hk,rfl,hget⟩,bounds_singleton hx,by rwa [rest_singleton],by rwa [rest_singleton]⟩
      · rw [Tree.unassigned,if_neg hbound]
    | some a =>
      have hne : x ≠ a := fun h => hbound (.inl (by rw [h]))
      have hcarries := hbounds.carries hx hne
      rw [Inserts,Tree.insert,Tree.unassigned,if_pos hx,if_neg hbound,if_neg hbound]
      simp only [hget,divide_pow,Nat.shiftRight_eq_div_pow,Nat.and_two_pow_sub_one_eq_mod]
      generalize (if x < a then x else a) = newMin at *
      generalize (if x < a then a else x) = carried at *
      obtain ⟨hh,hl,-⟩ := split_number hcarries.within
      rw [if_pos hh]
      by_cases hmin : (clusters (carried / 2 ^ (k / 2))).min = none
      · obtain ⟨hnew,summary',b,cluster,hinsert,hcluster,hrep'⟩ :=
          empty_cluster_inserts hrep hcarries (ihSummary _ _ _ hsummary hh) hmin
        rw [if_pos hmin,if_pos hmin,hinsert,hcluster]
        exact ⟨_,true,rfl,hrep',fun _ => ⟨fun _ => hnew,fun _ => rfl⟩,fun h => (by cases h)⟩
      · obtain ⟨cluster,b,hinsert,hrep',hassigned,hunassigned⟩ :=
          cluster_inserts hrep hcarries (ihClusters _ _ _ _ (hclusters _ hh) hl) hmin
        rw [if_neg hmin,if_neg hmin,hinsert]
        exact ⟨_,b,rfl,hrep',hassigned,hunassigned⟩

theorem Tree.Rep.inserts (hrep : t.Rep kMap k S) (hx : x < 2 ^ k) : Inserts kMap junk k S t x := by
  induction t generalizing k S x with
  | base => exact base_inserts hrep hx
  | node _ _ _ _ _ ihSummary ihClusters =>
    exact node_inserts (fun _ _ _ => ihSummary) (fun h _ _ _ => ihClusters h) hrep hx

end Montage.HTMvEBTree
