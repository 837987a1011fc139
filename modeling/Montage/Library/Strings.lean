import Mathlib.Data.List.Lex

namespace Montage.Library
open List

/-- `strncmp` on arrays of bytes, where those past the end count as zero. -/
def strncmp : List Nat → List Nat → Nat → Ordering
  | _, _, 0 => .eq
  | a, b, n + 1 =>
    match compare (a.headD 0) (b.headD 0) with
    | .eq => if a.headD 0 = 0 then .eq else strncmp a.tail b.tail n
    | o => o

/-- What an array of `size` bytes holds after a string was copied to it: the string, a zero if there
is room for it, and what was there before (zeros, where `junk` has no more bytes). -/
def fill (size : Nat) (s junk : List Nat) : List Nat := ((s ++ 0 :: junk).take size).rightpad size 0

/-- A string without zeros that fits into an array. -/
structure Fits (size : Nat) (s : List Nat) : Prop where
  length : s.length ≤ size
  positive : ∀ c ∈ s, 0 < c

variable {size c : Nat} {a b k s junk rest : List Nat}

theorem fill_eq (h : s.length ≤ size) (junk : List Nat) :
    ∃ rest, fill size s junk = s ++ rest ∧ rest.headD 0 = 0 := by
  refine ⟨((0 :: junk).take (size - s.length)).rightpad (size - s.length) 0,?_,?_⟩
  · simp only [fill,take_append,take_of_length_le h,rightpad,append_assoc,length_append]
    rw [Nat.sub_add_eq]
  · cases size - s.length with
    | zero => rfl
    | succ => rfl

theorem fill_self_iff (h : s.length ≤ size) : fill size s junk = s ↔ s.length = size := by
  obtain ⟨rest,hfill,-⟩ := fill_eq h junk
  have hlength : (fill size s junk).length = size := by
    simp only [fill,length_rightpad,length_take]
    omega
  constructor
  · intro heq
    rwa [heq] at hlength
  · intro hs
    rw [hfill,length_append,hs] at hlength
    rw [hfill,eq_nil_of_length_eq_zero (by omega : rest.length = 0),append_nil]

theorem strncmp_lt {n : Nat} (h : a.headD 0 < b.headD 0) : strncmp a b (n + 1) = .lt := by
  rw [strncmp,Nat.compare_eq_lt.mpr h]

theorem strncmp_gt {n : Nat} (h : b.headD 0 < a.headD 0) : strncmp a b (n + 1) = .gt := by
  rw [strncmp,Nat.compare_eq_gt.mpr h]

theorem strncmp_same {n : Nat} (hc : 0 < c) : strncmp (c :: a) (c :: b) (n + 1) = strncmp a b n := by
  have heq : compare ((c :: a).headD 0) ((c :: b).headD 0) = .eq := Nat.compare_eq_eq.mpr rfl
  rw [strncmp,heq]
  exact if_neg (ne_of_gt hc)

theorem strncmp_append (hk : ∀ c ∈ k, 0 < c) (ha : ∀ c ∈ a, 0 < c) (hrest : rest.headD 0 = 0) :
    (strncmp (a ++ rest) k k.length = .lt ↔ a < k) ∧
      (strncmp (a ++ rest) k k.length = .eq ↔ k <+: a) := by
  induction k generalizing a with
  | nil => exact ⟨⟨fun h => (by cases h),fun h => absurd h (not_lt_nil a)⟩,by simp [strncmp]⟩
  | cons c k ih =>
    have hc : 0 < c := hk c mem_cons_self
    rw [length_cons]
    cases a with
    | nil =>
      rw [strncmp_lt (by rwa [nil_append,hrest])]
      simp
    | cons d =>
      have ih := ih (fun x hx => hk x (mem_cons_of_mem c hx))
        fun x hx => ha x (mem_cons_of_mem d hx)
      rw [cons_append,cons_lt_cons_iff,cons_prefix_cons]
      rcases lt_trichotomy d c with hlt | rfl | hgt
      · rw [strncmp_lt (by exact hlt)]
        simp [hlt,ne_of_gt hlt]
      · rw [strncmp_same hc]
        simpa using ih
      · rw [strncmp_gt (by exact hgt)]
        simp [ne_of_lt hgt,ne_of_gt hgt,not_lt.mpr (le_of_lt hgt)]

/-- A stored string against one that is searched for: as many bytes are compared as the latter has,
so a longer one that begins with it counts as equal. -/
theorem strncmp_fill (hk : Fits size k) (ha : Fits size a) (junk : List Nat) :
    (strncmp (fill size a junk) k k.length = .lt ↔ a < k) ∧
      (strncmp (fill size a junk) k k.length = .eq ↔ k <+: a) := by
  obtain ⟨rest,hfill,hrest⟩ := fill_eq ha.length junk
  rw [hfill]
  exact strncmp_append hk.positive ha.positive hrest

theorem prefix_not_lt (h : k <+: a) : ¬ a < k := by
  induction k generalizing a with
  | nil => exact not_lt_nil a
  | cons c k ih =>
    obtain ⟨t,rfl⟩ := h
    rw [cons_append,cons_lt_cons_iff]
    rintro (hlt | ⟨-,hlt⟩)
    · exact lt_irrefl c hlt
    · exact ih (prefix_append k t) hlt

theorem prefix_between (hka : k <+: a) (hkb : ¬ b < k) (hba : ¬ a < b) : k <+: b := by
  induction k generalizing a b with
  | nil => exact nil_prefix
  | cons c k ih =>
    obtain ⟨t,rfl⟩ := hka
    cases b with
    | nil => exact absurd (nil_lt_cons c k) hkb
    | cons d =>
      rw [cons_lt_cons_iff,not_or,not_and] at hkb
      rw [cons_append,cons_lt_cons_iff,not_or,not_and] at hba
      have heq : d = c := by omega
      subst heq
      exact cons_prefix_cons.mpr ⟨rfl,ih (prefix_append k t) (hkb.2 rfl) (hba.2 rfl)⟩

end Montage.Library
