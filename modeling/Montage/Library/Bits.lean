import Mathlib.Algebra.Group.Nat.Defs

namespace Montage.Library

/-- The lowest `w` bits of `n` in reverse order. -/
def mirror : (w n : Nat) → Nat
  | 0, _ => 0
  | w + 1, n => n % 2 * 2 ^ w + mirror w (n / 2)

theorem mirror_lt (w n : Nat) : mirror w n < 2 ^ w := by
  induction w generalizing n with
  | zero => exact Nat.one_pos
  | succ w ih =>
    have hrest := ih (n / 2)
    have hbit : n % 2 * 2 ^ w ≤ 1 * 2 ^ w := Nat.mul_le_mul_right _ (by omega)
    rw [mirror,Nat.pow_succ]
    omega

theorem mirror_zero (w : Nat) : mirror w 0 = 0 := by
  induction w with
  | zero => rfl
  | succ w ih => simp [mirror,ih]

theorem mirror_one (w : Nat) : mirror (w + 1) 1 = 2 ^ w := by
  simp [mirror,mirror_zero]

/-- The mirror of two fields: they change places. -/
theorem mirror_add (k m n : Nat) :
    mirror (k + m) n = mirror k n * 2 ^ m + mirror m (n / 2 ^ k) := by
  induction k generalizing n with
  | zero => simp [mirror]
  | succ k ih =>
    rw [Nat.add_right_comm,mirror,mirror,ih,Nat.div_div_eq_div_mul,← Nat.pow_succ',Nat.add_mul,
      Nat.mul_assoc,← Nat.pow_add,Nat.add_assoc]

theorem mirror_mod (k n : Nat) : mirror k (n % 2 ^ k) = mirror k n := by
  induction k generalizing n with
  | zero => rfl
  | succ k ih =>
    have hbit : n % 2 ^ (k + 1) % 2 = n % 2 :=
      Nat.mod_mod_of_dvd _ (Nat.pow_succ' ▸ Nat.dvd_mul_right 2 (2 ^ k))
    have hrest : n % 2 ^ (k + 1) / 2 = n / 2 % 2 ^ k := by
      rw [Nat.pow_succ',Nat.mod_mul_right_div_self]
    rw [mirror,mirror,hbit,hrest,ih]

/-- Mirroring loses no more than the bits beyond `w`. -/
theorem mirror_inj (h : mirror w a = mirror w b) : a % 2 ^ w = b % 2 ^ w := by
  induction w generalizing a b with
  | zero => rw [Nat.pow_zero,Nat.mod_one,Nat.mod_one]
  | succ w ih =>
    have ha := mirror_lt w (a / 2)
    have hb := mirror_lt w (b / 2)
    rw [mirror,mirror] at h
    have hbit : a % 2 = b % 2 := by
      have hdiv := congrArg (· / 2 ^ w) h
      simp only [Nat.mul_comm _ (2 ^ w),Nat.mul_add_div (Nat.two_pow_pos w),
        Nat.div_eq_of_lt ha,Nat.div_eq_of_lt hb,Nat.add_zero] at hdiv
      exact hdiv
    rw [hbit] at h
    have hrest := ih (Nat.add_left_cancel h)
    rw [Nat.pow_succ',Nat.mod_mul,Nat.mod_mul,hbit,hrest]

theorem mirror_pos (h : n % 2 ^ w ≠ 0) : 0 < mirror w n := by
  refine Nat.pos_of_ne_zero ?_
  intro hzero
  have := mirror_inj (hzero.trans (mirror_zero w).symm)
  rw [Nat.zero_mod] at this
  exact h this

theorem mirror_of_mod (hb : n % 2 ^ k = b) (m : Nat) :
    mirror (k + m) n = mirror k b * 2 ^ m + mirror m (n / 2 ^ k) := by
  rw [mirror_add,← hb,mirror_mod]

theorem mirror_of_lt (hb : b < 2 ^ k) (m : Nat) : mirror (k + m) b = mirror k b * 2 ^ m := by
  rw [mirror_add,Nat.div_eq_of_lt hb,mirror_zero,Nat.add_zero]

/-- Between two multiples of `M` there is room for a remainder. -/
theorem lt_of_multiple_lt {x y r M : Nat} (h : x * M < y * M) (hr : r < M) : x * M + r < y * M := by
  have hxy : x + 1 ≤ y := Nat.lt_of_mul_lt_mul_right h
  have hle := Nat.mul_le_mul_right M hxy
  rw [Nat.succ_mul] at hle
  omega

end Montage.Library
