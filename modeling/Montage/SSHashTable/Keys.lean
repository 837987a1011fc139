import Montage.Library.Bits
import Montage.SSHashTable.Lists

namespace Montage.SSHashTable
open Library

/-- `get_parent` on the words of the source. For bucket 0 `__builtin_clz` is undefined. -/
def Word.getParent (bucket : BitVec 32) : BitVec 32 :=
  let msb : BitVec 32 := 1 <<< (32 - bucket.clz.toNat - 1)
  bucket &&& ~~~msb

theorem reverse_loop_mirror (hi : i ≤ 64) (hans : ans.toNat % 2 ^ i = 0) :
    (reverseLoop i ans n).toNat = ans.toNat + mirror i n.toNat := by
  induction i generalizing ans n with
  | zero => rfl
  | succ i ih =>
    have hbit : n.toNat % 2 * 2 ^ i < 2 ^ (i + 1) := by
      rw [Nat.pow_succ']
      exact Nat.mul_lt_mul_of_pos_right (Nat.mod_lt _ Nat.two_pos) (Nat.two_pow_pos i)
    have hshift : ((n &&& 1) <<< i).toNat = n.toNat % 2 * 2 ^ i := by
      have hword : 2 ^ (i + 1) ≤ 2 ^ 64 := Nat.pow_le_pow_right Nat.two_pos hi
      rw [BitVec.toNat_shiftLeft,BitVec.toNat_and,Nat.shiftLeft_eq]
      change (n.toNat &&& 1) * 2 ^ i % 2 ^ 64 = _
      rw [Nat.and_one_is_mod,Nat.mod_eq_of_lt (lt_of_lt_of_le hbit hword)]
    have hor : (ans ||| (n &&& 1) <<< i).toNat = ans.toNat + n.toNat % 2 * 2 ^ i := by
      have hdiv := Nat.mul_div_cancel' (Nat.dvd_of_mod_eq_zero hans)
      rw [BitVec.toNat_or,hshift,← hdiv,Nat.two_pow_add_eq_or_of_lt hbit]
    have hlow : (ans ||| (n &&& 1) <<< i).toNat % 2 ^ i = 0 := by
      have hdvd : 2 ^ i ∣ ans.toNat :=
        Nat.dvd_trans (Nat.pow_dvd_pow 2 (Nat.le_succ i)) (Nat.dvd_of_mod_eq_zero hans)
      rw [hor]
      exact Nat.mod_eq_zero_of_dvd (Nat.dvd_add hdvd (Nat.dvd_mul_left _ _))
    rw [reverseLoop,ih (Nat.le_of_succ_le hi) hlow,hor,mirror,BitVec.toNat_ushiftRight,
      Nat.shiftRight_one,Nat.add_assoc]

theorem reverse_bits_mirror (n : BitVec 64) : (reverseBits n).toNat = mirror 64 n.toNat := by
  rw [reverseBits,reverse_loop_mirror le_rfl (Nat.zero_mod _)]
  exact Nat.zero_add _

theorem so_dummykey_mirror (hb : b < 2 ^ 64) : (soDummykey b).toNat = mirror 64 b := by
  rw [soDummykey,reverse_bits_mirror,BitVec.toNat_ofNat,Nat.mod_eq_of_lt hb]

theorem so_regularkey_mirror (hh : h.msb = false) :
    (soRegularkey h).toNat = mirror 64 (2 ^ 63 + h.toNat) := by
  have hlt : h.toNat < 2 ^ 63 := BitVec.toNat_lt_of_msb_false hh
  have hor : (h ||| 1 <<< 63).toNat = 2 ^ 63 + h.toNat := by
    have := Nat.two_pow_add_eq_or_of_lt hlt 1
    rw [BitVec.toNat_or,Nat.or_comm]
    rw [Nat.mul_one] at this
    exact this.symm
  rw [soRegularkey,reverse_bits_mirror,hor]

/-- The dummy keys of a table of size `2 ^ k` are the multiples of `2 ^ (64 - k)`. -/
theorem so_dummykey_multiple (hk : k ≤ 64) (hb : b < 2 ^ k) :
    (soDummykey b).toNat = mirror k b * 2 ^ (64 - k) := by
  have hword := lt_of_lt_of_le hb (Nat.pow_le_pow_right Nat.two_pos hk)
  rw [so_dummykey_mirror hword,← mirror_of_lt hb,Nat.add_sub_cancel' hk]

/-- A regular key lies behind the dummy key of its bucket by less than `2 ^ (64 - k)`. -/
theorem so_regularkey_offset (hk : k ≤ 63) (hh : h.msb = false) (hmod : h.toNat % 2 ^ k = b) :
    ∃ r, (soRegularkey h).toNat = mirror k b * 2 ^ (64 - k) + r ∧ 0 < r ∧ r < 2 ^ (64 - k) := by
  have hsplit : 2 ^ k * 2 ^ (63 - k) = 2 ^ 63 := by rw [← Nat.pow_add,Nat.add_sub_cancel' hk]
  have hlow : (2 ^ 63 + h.toNat) % 2 ^ k = b := by
    rw [← hsplit,Nat.mul_add_mod,hmod]
  have hhigh : (2 ^ 63 + h.toNat) / 2 ^ k = 2 ^ (63 - k) + h.toNat / 2 ^ k := by
    rw [← hsplit,Nat.mul_add_div (Nat.two_pow_pos k)]
  have hrest : h.toNat / 2 ^ k < 2 ^ (63 - k) :=
    Nat.div_lt_of_lt_mul (hsplit ▸ BitVec.toNat_lt_of_msb_false hh)
  have hwidth : 2 ^ (64 - k) = 2 ^ (63 - k) * 2 := by
    rw [← Nat.pow_succ]
    congr 1
    omega
  refine ⟨mirror (64 - k) ((2 ^ 63 + h.toNat) / 2 ^ k),?_,?_,mirror_lt _ _⟩
  · rw [so_regularkey_mirror hh,← mirror_of_mod hlow,Nat.add_sub_cancel' (by omega)]
  · apply mirror_pos
    rw [hhigh,Nat.mod_eq_of_lt (by omega)]
    exact ne_of_gt (Nat.add_pos_left (Nat.two_pow_pos _) _)

theorem so_regularkey_inj (hh : h.msb = false) (hh' : h'.msb = false)
    (he : soRegularkey h = soRegularkey h') : h = h' := by
  have hlt := BitVec.toNat_lt_of_msb_false hh
  have hlt' := BitVec.toNat_lt_of_msb_false hh'
  have hmirror := congrArg BitVec.toNat he
  rw [so_regularkey_mirror hh,so_regularkey_mirror hh'] at hmirror
  have hmod := mirror_inj hmirror
  rw [Nat.mod_eq_of_lt (by omega),Nat.mod_eq_of_lt (by omega)] at hmod
  exact BitVec.eq_of_toNat_eq (Nat.add_left_cancel hmod)

theorem clz_bounds {b : BitVec 32} (hb : b ≠ 0) :
    2 ^ (32 - b.clz.toNat - 1) ≤ b.toNat ∧ b.toNat < 2 ^ (32 - b.clz.toNat - 1 + 1) := by
  have hlt : b.clz.toNat < 32 := BitVec.clz_lt_iff_ne_zero.mpr hb
  have hle := BitVec.two_pow_sub_clz_le_toNat_of_ne_zero (by decide) hb
  have hgt := BitVec.toNat_lt_two_pow_sub_clz (x := b)
  rw [Nat.sub_add_cancel (by omega),Nat.sub_right_comm]
  exact ⟨hle,hgt⟩

theorem pow_bounds_unique (hle : 2 ^ i ≤ n) (hlt : n < 2 ^ (i + 1)) (hle' : 2 ^ j ≤ n)
    (hlt' : n < 2 ^ (j + 1)) : i = j := by
  have h := (Nat.pow_lt_pow_iff_right Nat.one_lt_two).mp (lt_of_le_of_lt hle hlt')
  have h' := (Nat.pow_lt_pow_iff_right Nat.one_lt_two).mp (lt_of_le_of_lt hle' hlt)
  omega

theorem word_get_parent {b : BitVec 32} (hle : 2 ^ j ≤ b.toNat) (hlt : b.toNat < 2 ^ (j + 1)) :
    (Word.getParent b).toNat = b.toNat % 2 ^ j := by
  have hb : b ≠ 0 := by
    intro hzero
    rw [hzero] at hle
    exact absurd hle (not_le.mpr (Nat.two_pow_pos j))
  obtain ⟨hle',hlt'⟩ := clz_bounds hb
  have hj : 32 - b.clz.toNat - 1 = j := pow_bounds_unique hle' hlt' hle hlt
  have hj32 : j < 32 := by omega
  refine Nat.eq_of_testBit_eq fun i => ?_
  have hbit : (Word.getParent b).getLsbD i = (b.getLsbD i && !decide (j = i)) := by
    change (b &&& ~~~BitVec.twoPow 32 (32 - b.clz.toNat - 1)).getLsbD i = _
    rw [hj,BitVec.getLsbD_and,BitVec.getLsbD_not,BitVec.getLsbD_twoPow,decide_eq_true hj32]
    cases hi : b.getLsbD i with
    | false => rfl
    | true => simp [BitVec.lt_of_getLsbD hi]
  rw [BitVec.testBit_toNat,hbit,Nat.testBit_mod_two_pow,BitVec.testBit_toNat]
  rcases lt_trichotomy i j with hi | rfl | hi
  · simp [hi,ne_of_gt hi]
  · simp
  · have hzero : b.getLsbD i = false :=
      Nat.testBit_lt_two_pow (lt_of_lt_of_le hlt (Nat.pow_le_pow_right Nat.two_pos hi))
    simp [hzero]

theorem get_parent_word {b : BitVec 32} (hb : b ≠ 0) :
    getParent b.toNat = (Word.getParent b).toNat := by
  have hn : b.toNat ≠ 0 := fun hzero => hb (BitVec.eq_of_toNat_eq hzero)
  have hle := Nat.log2_self_le hn
  have hlt := Nat.lt_log2_self (n := b.toNat)
  rw [word_get_parent hle hlt,getParent,if_neg hn,Nat.mod_eq_sub_mod hle,Nat.mod_eq_of_lt]
  rw [Nat.pow_succ] at hlt
  omega

theorem div_pow_eq_one {n j : Nat} (hle : 2 ^ j ≤ n) (hlt : n < 2 ^ (j + 1)) : n / 2 ^ j = 1 := by
  rw [Nat.pow_succ] at hlt
  exact Nat.div_eq_of_lt_le (by omega) (by omega)

theorem dummykey_of_parent {n j : Nat} (hj : j < 64) (hle : 2 ^ j ≤ n) (hlt : n < 2 ^ (j + 1)) :
    (soDummykey n).toNat = mirror j (n % 2 ^ j) * 2 ^ (64 - j) + 2 ^ (63 - j) := by
  have hword := lt_of_lt_of_le hlt (Nat.pow_le_pow_right Nat.two_pos hj)
  have hwidth : 63 - j + 1 = 64 - j := by omega
  rw [so_dummykey_mirror hword,← Nat.add_sub_cancel' (le_of_lt hj),mirror_of_mod rfl,
    Nat.add_sub_cancel_left,div_pow_eq_one hle hlt,← hwidth,mirror_one]

/-- No bucket of a table that is too small to have `b` comes between `b` and its parent. -/
theorem parent_keys {b : BitVec 32} {j : Nat} (hle : 2 ^ j ≤ b.toNat)
    (hlt : b.toNat < 2 ^ (j + 1)) :
    soDummykey (Word.getParent b).toNat < soDummykey b.toNat ∧
      ∀ x < 2 ^ j, soDummykey (Word.getParent b).toNat < soDummykey x →
        soDummykey b.toNat < soDummykey x := by
  have hj : j < 64 := (Nat.pow_lt_pow_iff_right Nat.one_lt_two).mp
    (lt_of_le_of_lt hle (lt_trans b.isLt (by decide)))
  have hhalf : 2 ^ (63 - j) < 2 ^ (64 - j) :=
    (Nat.pow_lt_pow_iff_right Nat.one_lt_two).mpr (by omega)
  have hparent := so_dummykey_multiple (le_of_lt hj) (Nat.mod_lt b.toNat (Nat.two_pow_pos j))
  have hself := dummykey_of_parent hj hle hlt
  rw [word_get_parent hle hlt]
  refine ⟨?_,?_⟩
  · rw [BitVec.lt_def,hparent,hself]
    exact Nat.lt_add_of_pos_right (Nat.two_pow_pos _)
  · intro x hx hbehind
    rw [BitVec.lt_def,hparent,so_dummykey_multiple (le_of_lt hj) hx] at hbehind
    rw [BitVec.lt_def,hself,so_dummykey_multiple (le_of_lt hj) hx]
    exact lt_of_multiple_lt hbehind hhalf

theorem parent_lt {b : BitVec 32} (hb : 0 < b.toInt) :
    b ≠ 0 ∧ (Word.getParent b).toInt < b.toInt := by
  have hpos := BitVec.toInt_pos_iff.mp (Int.le_of_lt hb)
  have hne : b ≠ 0 := by
    intro hzero
    rw [hzero] at hb
    exact absurd hb (by decide)
  obtain ⟨hle,hlt⟩ := clz_bounds hne
  have hparent := word_get_parent hle hlt
  have hless := lt_of_lt_of_le (Nat.mod_lt b.toNat (Nat.two_pow_pos _)) hle
  rw [← hparent] at hless
  refine ⟨hne,?_⟩
  rw [BitVec.toInt_eq_toNat_of_lt hpos,BitVec.toInt_eq_toNat_of_lt (by omega)]
  exact Int.ofNat_lt.mpr hless

/-- Split-order keys refine the order of buckets: the keys of a bucket lie between its dummy key
and the next one, the dummy key of a new bucket lies between those of its parent and the
bucket that follows it, and no two keys collide. -/
theorem split_order_refines :
    (∀ k ≤ 30, ∀ b < 2 ^ k, ∀ h : BitVec 64, h.msb = false → h.toNat % 2 ^ k = b →
      soDummykey b < soRegularkey h ∧
      ∀ b' < 2 ^ k, soDummykey b < soDummykey b' → soRegularkey h < soDummykey b') ∧
    (∀ b : BitVec 32, 0 < b.toInt →
      (Word.getParent b).toInt < b.toInt ∧
      soDummykey (Word.getParent b).toNat < soDummykey b.toNat ∧
      ∀ j, 2 ^ j ≤ b.toNat → b.toNat < 2 ^ (j + 1) → ∀ x < 2 ^ j,
        ¬(soDummykey (Word.getParent b).toNat < soDummykey x ∧ soDummykey x < soDummykey b.toNat)) ∧
    ∀ h h' : BitVec 64, h.msb = false → h'.msb = false → soRegularkey h = soRegularkey h' →
      h = h' := by
  refine ⟨?_,?_,?_⟩
  · intro k hk b hb h hh hmod
    obtain ⟨r,hkey,hpos,hlt⟩ := so_regularkey_offset (le_trans hk (by decide)) hh hmod
    have hb' := so_dummykey_multiple (le_trans hk (by decide)) hb
    refine ⟨?_,?_⟩
    · rw [BitVec.lt_def,hkey,hb']
      omega
    · intro c hc hbc
      rw [BitVec.lt_def,hb',so_dummykey_multiple (le_trans hk (by decide)) hc] at hbc
      rw [BitVec.lt_def,hkey,so_dummykey_multiple (le_trans hk (by decide)) hc]
      exact lt_of_multiple_lt hbc hlt
  · intro b hb
    obtain ⟨hne,hless⟩ := parent_lt hb
    obtain ⟨hle,hlt⟩ := clz_bounds hne
    refine ⟨hless,(parent_keys hle hlt).1,?_⟩
    rintro j hle' hlt' x hx ⟨hbehind,hbefore⟩
    exact BitVec.lt_asymm hbefore ((parent_keys hle' hlt').2 x hx hbehind)
  · intro h h' hh hh' he
    exact so_regularkey_inj hh hh' he

theorem split_order_refines_small :
    (soDummykey 1 < soRegularkey 5 ∧ (soDummykey 1 < soDummykey 3 → soRegularkey 5 < soDummykey 3)) ∧
      (Word.getParent 6 = 2 ∧ soDummykey 2 < soDummykey 6) := by
  obtain ⟨hbuckets,hparent,-⟩ := split_order_refines
  obtain ⟨hself,hother⟩ := hbuckets 2 (by decide) 1 (by decide) 5 (by decide) (by decide)
  exact ⟨⟨hself,hother 3 (by decide)⟩,by decide,(hparent 6 (by decide)).2.1⟩

end Montage.SSHashTable
