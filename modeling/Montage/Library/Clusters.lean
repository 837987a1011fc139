import Mathlib.Order.Bounds.Basic

namespace Montage.Library.Clusters

def Least (S : Set Nat) : Option Nat → Prop
  | none => S = ∅
  | some a => IsLeast S a

def Greatest (S : Set Nat) : Option Nat → Prop
  | none => S = ∅
  | some b => IsGreatest S b

def rest (S : Set Nat) (a : Option Nat) : Set Nat := {x | x ∈ S ∧ some x ≠ a}

/-- The offsets of the elements in cluster `h`, if clusters have size `c`. -/
def part (c h : Nat) (S : Set Nat) : Set Nat := {l | l < c ∧ h * c + l ∈ S}

def heads (c : Nat) (S : Set Nat) : Set Nat := {h | ∃ l < c, h * c + l ∈ S}

variable {S T : Set Nat} {a b c h i l x y : Nat} {m : Option Nat}

theorem Least.none_iff (h : Least S m) : m = none ↔ S = ∅ := by
  cases m with
  | none => exact ⟨fun _ => h,fun _ => rfl⟩
  | some a =>
    refine ⟨fun hn => (by cases hn),?_⟩
    rintro rfl
    exact absurd h.1 (Set.notMem_empty a)

section
variable (hl : l < c)
include hl

theorem index_inj (hx : x < c) : i * c + x = h * c + l ↔ i = h ∧ x = l := by
  constructor
  · intro heq
    have hpos : 0 < c := by omega
    have hi : (i * c + x) / c = i := by
      rw [Nat.add_comm,Nat.add_mul_div_right _ _ hpos,Nat.div_eq_of_lt hx,Nat.zero_add]
    have hh : (h * c + l) / c = h := by
      rw [Nat.add_comm,Nat.add_mul_div_right _ _ hpos,Nat.div_eq_of_lt hl,Nat.zero_add]
    have hih : i = h := by rw [← hi,heq,hh]
    subst hih
    exact ⟨rfl,by omega⟩
  · rintro ⟨rfl,rfl⟩
    rfl

omit hl in
theorem mem_heads : h ∈ heads c S ↔ (part c h S).Nonempty := Iff.rfl

theorem part_insert : part c h (insert (h * c + l) S) = insert l (part c h S) := by
  ext x
  simp only [part,Set.mem_ofPred_eq,Set.mem_insert_iff]
  constructor
  · rintro ⟨hx,heq | hS⟩
    · exact .inl ((index_inj hl hx).mp heq).2
    · exact .inr ⟨hx,hS⟩
  · rintro (rfl | ⟨hx,hS⟩)
    · exact ⟨hl,.inl rfl⟩
    · exact ⟨hx,.inr hS⟩

theorem part_insert_other (hi : i ≠ h) : part c i (insert (h * c + l) S) = part c i S := by
  ext x
  simp only [part,Set.mem_ofPred_eq,Set.mem_insert_iff]
  constructor
  · rintro ⟨hx,heq | hS⟩
    · exact absurd ((index_inj hl hx).mp heq).1 hi
    · exact ⟨hx,hS⟩
  · rintro ⟨hx,hS⟩
    exact ⟨hx,.inr hS⟩

theorem heads_insert : heads c (insert (h * c + l) S) = insert h (heads c S) := by
  ext i
  by_cases hi : i = h
  · subst hi
    rw [mem_heads,part_insert hl]
    simp
  · rw [mem_heads,part_insert_other hl hi,Set.mem_insert_iff,mem_heads]
    simp [hi]

theorem part_erase : part c h (S \ {h * c + l}) = part c h S \ {l} := by
  ext x
  simp only [part,Set.mem_ofPred_eq,Set.mem_sdiff,Set.mem_singleton_iff]
  constructor
  · rintro ⟨hx,hS,hne⟩
    exact ⟨⟨hx,hS⟩,fun he => hne (by rw [he])⟩
  · rintro ⟨⟨hx,hS⟩,hne⟩
    exact ⟨hx,hS,fun heq => hne ((index_inj hl hx).mp heq).2⟩

theorem part_erase_other (hi : i ≠ h) : part c i (S \ {h * c + l}) = part c i S := by
  ext x
  simp only [part,Set.mem_ofPred_eq,Set.mem_sdiff,Set.mem_singleton_iff]
  constructor
  · rintro ⟨hx,hS,-⟩
    exact ⟨hx,hS⟩
  · rintro ⟨hx,hS⟩
    exact ⟨hx,hS,fun heq => hi ((index_inj hl hx).mp heq).1⟩

theorem heads_erase_empty (hempty : part c h S \ {l} = ∅) :
    heads c (S \ {h * c + l}) = heads c S \ {h} := by
  ext i
  by_cases hi : i = h
  · subst hi
    rw [mem_heads,part_erase hl,hempty]
    simp
  · rw [mem_heads,part_erase_other hl hi,Set.mem_sdiff,mem_heads]
    simp [hi]

theorem heads_erase (hne : (part c h S \ {l}).Nonempty) :
    heads c (S \ {h * c + l}) = heads c S := by
  ext i
  by_cases hi : i = h
  · subst hi
    rw [mem_heads,part_erase hl,mem_heads]
    exact ⟨fun _ => hne.mono Set.sdiff_subset,fun _ => hne⟩
  · rw [mem_heads,part_erase_other hl hi,mem_heads]

end

theorem mem_index (hc : 0 < c) (hx : x ∈ S) : x % c ∈ part c (x / c) S := by
  refine ⟨Nat.mod_lt x hc,?_⟩
  rw [Nat.div_add_mod']
  exact hx

theorem heads_eq_empty (hc : 0 < c) : heads c S = ∅ ↔ S = ∅ := by
  constructor
  · intro h
    refine Set.eq_empty_iff_forall_notMem.mpr fun x hx => ?_
    have hhead : x / c ∈ heads c S := mem_heads.mpr ⟨_,mem_index hc hx⟩
    rw [h] at hhead
    exact hhead
  · rintro rfl
    ext x
    simp [heads]

theorem isLeast_index (hc : 0 < c) (hh : IsLeast (heads c S) h) (hl : IsLeast (part c h S) l) :
    IsLeast S (h * c + l) := by
  refine ⟨hl.1.2,fun x hx => ?_⟩
  have hmem := mem_index hc hx
  have hle : h ≤ x / c := hh.2 (mem_heads.mpr ⟨_,hmem⟩)
  have hsplit := Nat.div_add_mod' x c
  rcases lt_or_eq_of_le hle with hlt | heq
  · have hmul : (h + 1) * c ≤ x / c * c := Nat.mul_le_mul_right c hlt
    have hlc := hl.1.1
    rw [Nat.succ_mul] at hmul
    omega
  · rw [← heq] at hmem hsplit
    have := hl.2 hmem
    omega

theorem isGreatest_index (hc : 0 < c) (hh : IsGreatest (heads c S) h)
    (hl : IsGreatest (part c h S) l) : IsGreatest S (h * c + l) := by
  refine ⟨hl.1.2,fun x hx => ?_⟩
  have hmem := mem_index hc hx
  have hle : x / c ≤ h := hh.2 (mem_heads.mpr ⟨_,hmem⟩)
  have hsplit := Nat.div_add_mod' x c
  rcases lt_or_eq_of_le hle with hlt | heq
  · have hmul : (x / c + 1) * c ≤ h * c := Nat.mul_le_mul_right c hlt
    have hlc := hmem.1
    rw [Nat.succ_mul] at hmul
    omega
  · rw [heq] at hmem hsplit
    have := hl.2 hmem
    omega

theorem isGreatest_head (hl : l < c) (h : IsGreatest S (i * c + l)) : IsGreatest (heads c S) i := by
  refine ⟨⟨l,hl,h.1⟩,?_⟩
  rintro j ⟨m,hm,hmem⟩
  have hle := h.2 hmem
  by_contra hlt
  have hmul : (i + 1) * c ≤ j * c := Nat.mul_le_mul_right c (lt_of_not_ge hlt)
  rw [Nat.succ_mul] at hmul
  omega

theorem rest_empty : rest ∅ m = ∅ := by
  ext x
  simp [rest]

theorem rest_insert_below (hleast : IsLeast S a) (hx : x < a) :
    rest (insert x S) (some x) = insert a (rest S (some a)) := by
  ext y
  simp only [rest,Set.mem_ofPred_eq,Set.mem_insert_iff,ne_eq,Option.some.injEq]
  constructor
  · rintro ⟨rfl | hy,hne⟩
    · exact absurd rfl hne
    · by_cases hya : y = a
      · exact .inl hya
      · exact .inr ⟨hy,hya⟩
  · rintro (rfl | ⟨hy,hya⟩)
    · exact ⟨.inr hleast.1,by omega⟩
    · have hle := hleast.2 hy
      exact ⟨.inr hy,by omega⟩

theorem rest_insert_above (hx : x ≠ a) :
    rest (insert x S) (some a) = insert x (rest S (some a)) := by
  ext y
  simp only [rest,Set.mem_ofPred_eq,Set.mem_insert_iff,ne_eq,Option.some.injEq]
  constructor
  · rintro ⟨rfl | hy,hne⟩
    · exact .inl rfl
    · exact .inr ⟨hy,hne⟩
  · rintro (rfl | ⟨hy,hne⟩)
    · exact ⟨.inl rfl,hx⟩
    · exact ⟨.inr hy,hne⟩

theorem rest_erase_least : rest (S \ {a}) (some x) = rest S (some a) \ {x} := by
  ext y
  simp only [rest,Set.mem_ofPred_eq,Set.mem_sdiff,Set.mem_singleton_iff,ne_eq,Option.some.injEq]

theorem rest_erase_other : rest (S \ {x}) (some a) = rest S (some a) \ {x} := by
  ext y
  simp only [rest,Set.mem_ofPred_eq,Set.mem_sdiff,Set.mem_singleton_iff,ne_eq,Option.some.injEq]
  tauto

end Montage.Library.Clusters
