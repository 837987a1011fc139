import Montage.Library.Clusters
import Montage.HTMvEBTree.Model

namespace Montage.HTMvEBTree
open Library.Clusters Function

structure Bounds (k : Nat) (S : Set Nat) (min max : Option Nat) : Prop where
  within : ∀ x ∈ S, x < 2 ^ k
  least : Least S min
  greatest : Greatest S max

/-- A node of universe `2 ^ k` represents a set: the least element is kept in `min` only, the
others are in the clusters, and the summary has the clusters that are not empty. -/
def Tree.Rep (kMap : KMap) : Tree → Nat → Set Nat → Prop
  | .base min max, k, S => k = 1 ∧ Bounds k S min max
  | .node u min max summary clusters, k, S =>
    (2 ≤ k ∧ u = 2 ^ k ∧ kMap.get u = divideNode u) ∧ Bounds k S min max ∧
      summary.Rep kMap ((k + 1) / 2) (heads (2 ^ (k / 2)) (rest S min)) ∧
      ∀ h < 2 ^ ((k + 1) / 2),
        (clusters h).Rep kMap (k / 2) (part (2 ^ (k / 2)) h (rest S min))

/-- The universes, by their powers, of a node and of everything below it. -/
inductive Sub : Nat → Nat → Prop
  | refl (k : Nat) : Sub k k
  | upper (hk : 2 ≤ k) (h : Sub ((k + 1) / 2) j) : Sub k j
  | lower (hk : 2 ≤ k) (h : Sub (k / 2) j) : Sub k j

variable {kMap : KMap} {t summary summary' cluster : Tree} {clusters : Nat → Tree}
  {min max min' max' : Option Nat} {S S' : Set Nat} {k u h l x : Nat}

theorem Tree.Rep.bounds (h : t.Rep kMap k S) : Bounds k S t.min t.max := by
  cases t with
  | base => exact h.2
  | node => exact h.2.1

theorem Tree.Rep.min_none (h : t.Rep kMap k S) : t.min = none ↔ S = ∅ := h.bounds.least.none_iff

theorem divide_pow (k : Nat) :
    divideNode (2 ^ k) = ⟨2 ^ (k / 2),2 ^ ((k + 1) / 2),k / 2,(k + 1) / 2,2 ^ (k / 2) - 1⟩ := by
  simp only [divideNode,Nat.log2_two_pow]

theorem split_number (hx : x < 2 ^ k) :
    x / 2 ^ (k / 2) < 2 ^ ((k + 1) / 2) ∧ x % 2 ^ (k / 2) < 2 ^ (k / 2) ∧
      x / 2 ^ (k / 2) * 2 ^ (k / 2) + x % 2 ^ (k / 2) = x := by
  have hpos : 0 < 2 ^ (k / 2) := Nat.two_pow_pos _
  refine ⟨?_,Nat.mod_lt _ hpos,Nat.div_add_mod' x _⟩
  rw [Nat.div_lt_iff_lt_mul hpos,← Nat.pow_add,show (k + 1) / 2 + k / 2 = k by omega]
  exact hx

theorem update_clusters {R R' : Set Nat} {n j c : Nat}
    (hclusters : ∀ i < n, (clusters i).Rep kMap j (part c i R))
    (hother : ∀ i, i ≠ h → part c i R' = part c i R) (hcluster : cluster.Rep kMap j (part c h R')) :
    ∀ i < n, (update clusters h cluster i).Rep kMap j (part c i R') := by
  intro i hi
  rw [update_apply]
  split
  next heq =>
    rw [heq]
    exact hcluster
  next hne =>
    rw [hother i hne]
    exact hclusters i hi

theorem Tree.Rep.update (hrep : (Tree.node u min max summary clusters).Rep kMap k S)
    (hbounds : Bounds k S' min' max')
    (hother : ∀ i, i ≠ h →
      part (2 ^ (k / 2)) i (rest S' min') = part (2 ^ (k / 2)) i (rest S min))
    (hsummary : summary'.Rep kMap ((k + 1) / 2) (heads (2 ^ (k / 2)) (rest S' min')))
    (hcluster : cluster.Rep kMap (k / 2) (part (2 ^ (k / 2)) h (rest S' min'))) :
    (Tree.node u min' max' summary' (update clusters h cluster)).Rep kMap k S' :=
  ⟨hrep.1,hbounds,hsummary,update_clusters hrep.2.2.2 hother hcluster⟩

theorem bounds_singleton (hx : x < 2 ^ k) : Bounds k {x} (some x) (some x) := by
  refine ⟨?_,isLeast_singleton,isGreatest_singleton⟩
  rintro y rfl
  exact hx

theorem rest_singleton (x : Nat) : rest {x} (some x) = ∅ := by
  ext y
  simp [rest]

theorem Tree.Rep.insert_to_empty (hrep : t.Rep kMap k ∅) (hx : x < 2 ^ k) :
    ∃ t', t.insertToEmptyVEB x = some t' ∧ t'.Rep kMap k {x} := by
  cases t with
  | base =>
    obtain ⟨rfl,-⟩ := hrep
    exact ⟨.base (some x) (some x),if_pos hx,rfl,bounds_singleton hx⟩
  | node u _ _ summary clusters =>
    obtain ⟨hshape,-,hsummary,hclusters⟩ := hrep
    refine ⟨.node u (some x) (some x) summary clusters,
      by rw [Tree.insertToEmptyVEB,if_pos (hshape.2.1 ▸ hx)],hshape,bounds_singleton hx,?_⟩
    rw [rest_singleton]
    rw [rest_empty] at hsummary hclusters
    exact ⟨hsummary,hclusters⟩

/-- The entries of `kMap` are what `divide_node` gives. -/
def Sound (kMap : KMap) : Prop := ∀ v ui, kMap.lookup v = some ui → ui = divideNode v

theorem populate_sound (fuel u : Nat) (h : Sound kMap) : Sound (populateMaps fuel u kMap) := by
  induction fuel generalizing u kMap with
  | zero => exact h
  | succ _ ih =>
    have hfirst : Sound (if (kMap.lookup u).isSome then kMap else (u,divideNode u) :: kMap) := by
      split
      next => exact h
      next =>
        intro v ui hv
        rw [List.lookup_cons] at hv
        split at hv
        next heq =>
          cases hv
          rw [beq_iff_eq.mp heq]
        next => exact h v ui hv
    simp only [populateMaps]
    split
    next => exact ih _ (ih _ hfirst)
    next => exact hfirst

theorem populate_keeps (fuel u v : Nat) (h : (kMap.lookup v).isSome) :
    ((populateMaps fuel u kMap).lookup v).isSome := by
  induction fuel generalizing u kMap with
  | zero => exact h
  | succ _ ih =>
    have hfirst : ((if (kMap.lookup u).isSome then kMap
        else (u,divideNode u) :: kMap).lookup v).isSome := by
      split
      next => exact h
      next =>
        rw [List.lookup_cons]
        split
        next => rfl
        next => exact h
    simp only [populateMaps]
    split
    next => exact ih _ (ih _ hfirst)
    next => exact hfirst

theorem populate_first (fuel u : Nat) : ((populateMaps (fuel + 1) u kMap).lookup u).isSome := by
  have hfirst : ((if (kMap.lookup u).isSome then kMap
      else (u,divideNode u) :: kMap).lookup u).isSome := by
    split
    next h => exact h
    next => simp
  simp only [populateMaps]
  split
  next => exact populate_keeps _ _ _ (populate_keeps _ _ _ hfirst)
  next => exact hfirst

theorem two_lt_pow (hk : 2 ≤ k) : 2 < 2 ^ k :=
  lt_of_lt_of_le (by decide) (Nat.pow_le_pow_right (by decide) hk)

theorem populate_covers {fuel j : Nat} (kMap : KMap) (hsub : Sub k j) (hpos : 1 ≤ k) (hfuel : k ≤ fuel) :
    ((populateMaps fuel (2 ^ k) kMap).lookup (2 ^ j)).isSome := by
  induction hsub generalizing fuel kMap with
  | refl =>
    cases fuel with
    | zero => omega
    | succ fuel => exact populate_first fuel _
  | @upper k j hk h ih =>
    cases fuel with
    | zero => omega
    | succ =>
      simp only [populateMaps,if_pos (two_lt_pow hk),divide_pow]
      exact populate_keeps _ _ _ (ih _ (by omega) (by omega))
  | @lower k j hk h ih =>
    cases fuel with
    | zero => omega
    | succ =>
      simp only [populateMaps,if_pos (two_lt_pow hk),divide_pow]
      exact ih _ (by omega) (by omega)

theorem populated_get {j : Nat} (hsub : Sub k j) (hpos : 1 ≤ k) :
    (populateMaps k (2 ^ k) []).get (2 ^ j) = divideNode (2 ^ j) := by
  have hempty : Sound [] := fun _ _ h => (by cases h)
  obtain ⟨ui,hui⟩ := Option.isSome_iff_exists.mp (populate_covers [] hsub hpos (le_refl k))
  have hsound := populate_sound k (2 ^ k) hempty _ ui hui
  rw [KMap.get,hui,hsound]
  rfl

theorem bounds_empty : Bounds k ∅ none none :=
  ⟨fun x hx => absurd hx (Set.notMem_empty x),rfl,rfl⟩

theorem part_empty (c h : Nat) : part c h ∅ = ∅ := by
  ext x
  simp [part]

theorem heads_empty (c : Nat) : heads c ∅ = ∅ := by
  ext x
  simp [heads]

theorem make_rep {fuel : Nat} (hget : ∀ j, Sub k j → kMap.get (2 ^ j) = divideNode (2 ^ j))
    (hpos : 1 ≤ k) (hfuel : k ≤ fuel) : (make kMap fuel (2 ^ k)).Rep kMap k ∅ := by
  induction fuel generalizing k with
  | zero => omega
  | succ _ ih =>
    by_cases hk : k = 1
    · subst hk
      exact ⟨rfl,bounds_empty⟩
    · have htwo : 2 ≤ k := by omega
      have hinfo : (kMap.lookup (2 ^ k)).getD (divideNode (2 ^ k)) = divideNode (2 ^ k) := by
        have hself := hget k (.refl k)
        cases hlookup : kMap.lookup (2 ^ k) with
        | none => rfl
        | some =>
          rw [KMap.get,hlookup] at hself
          exact hself
      have hne : 2 ^ k ≠ 2 := ne_of_gt (two_lt_pow htwo)
      rw [divide_pow] at hinfo
      simp only [make,if_neg hne,divide_pow,hinfo]
      refine ⟨⟨htwo,rfl,hget k (.refl k)⟩,bounds_empty,?_,?_⟩
      · rw [rest_empty,heads_empty]
        exact ih (fun j hj => hget j (.upper htwo hj)) (by omega) (by omega)
      · intro h _
        rw [rest_empty,part_empty]
        exact ih (fun j hj => hget j (.lower htwo hj)) (by omega) (by omega)

end Montage.HTMvEBTree
