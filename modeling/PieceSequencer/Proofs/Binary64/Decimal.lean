import Mathlib.Tactic.LinearCombination
import PieceSequencer.Binary64.Decimal
import PieceSequencer.Proofs.Binary64.Rounding
import PieceSequencer.Proofs.Text.Numeral

/-! # The shortest decimal reads back

The size of a decimal bounds its value by powers of ten, so telling the extreme ones by their size
changes nothing: a decimal reads as the magnitude nearest to its value, however it is written
(`Decimal.nearest?_eq`).  The decimals that `Magnitude.shortest` tries are tested by reading them,
and the exact value behind them reads as the magnitude that it is. -/

namespace PieceSequencer

namespace Decimal

theorem toRat_nonneg (d : Decimal) : 0 ≤ d.toRat := by
  unfold toRat
  positivity

/-! ### Sizes -/

theorem toRat_lt (d : Decimal) : d.toRat < 10 ^ d.size := by
  have hlt : (d.digits : ℚ) < 10 ^ ((Numeral.write d.digits).length : ℤ) := by
    exact_mod_cast Numeral.lt_pow_length_write d.digits
  rw [toRat, size, zpow_add₀ (by norm_num)]
  exact mul_lt_mul_of_pos_right hlt (by positivity)

theorem pow_size_le {d : Decimal} (h : d.digits ≠ 0) : 10 ^ d.size ≤ 10 * d.toRat := by
  have hle : (10 : ℚ) ^ ((Numeral.write d.digits).length : ℤ) ≤ 10 * d.digits := by
    exact_mod_cast Numeral.pow_length_write_le h
  rw [toRat, size, zpow_add₀ (by norm_num), ← mul_assoc]
  exact mul_le_mul_of_nonneg_right hle (by positivity)

/-- Decimals of size `-331` and less are below half of the least positive magnitude. -/
theorem pow_ten_le_pow_two : (10 : ℚ) ^ (-331 : ℤ) ≤ 2 ^ (-1075 : ℤ) := by
  have hle : 2 ^ 1075 ≤ 10 ^ 331 := by decide +kernel
  rw [zpow_neg, zpow_neg]
  exact inv_anti₀ (by positivity) (by exact_mod_cast hle)

/-- Decimals of size `311` and more are above the largest magnitude. -/
theorem pow_two_le_pow_ten : (10 : ℚ) * 2 ^ (1024 : ℤ) ≤ 10 ^ (311 : ℤ) := by
  have hle : 10 * 2 ^ 1024 ≤ 10 ^ 311 := by decide +kernel
  exact_mod_cast hle

/-- **A decimal reads as the magnitude nearest to its value.** -/
theorem nearest?_eq (d : Decimal) : d.nearest? = Magnitude.nearest? d.toRat := by
  have hmono : ∀ {e e' : ℤ}, e ≤ e' → (10 : ℚ) ^ e ≤ 10 ^ e' :=
    fun hle => zpow_le_zpow_right₀ (by norm_num) hle
  unfold nearest?
  split
  · rename_i hsmall
    refine (Magnitude.nearest?_of_lt d.toRat_nonneg ?_).symm
    rcases hsmall with hzero | hsize
    · rw [toRat, hzero, Nat.cast_zero, zero_mul]
      positivity
    · calc d.toRat < 10 ^ d.size := d.toRat_lt
        _ ≤ 10 ^ (-331 : ℤ) := hmono (by omega)
        _ ≤ 2 ^ (-1075 : ℤ) := pow_ten_le_pow_two
  · rename_i hnot
    rw [not_or] at hnot
    split
    · rename_i hlarge
      have htimes : 10 * 2 ^ (1024 : ℤ) ≤ 10 * d.toRat :=
        calc (10 : ℚ) * 2 ^ (1024 : ℤ) ≤ 10 ^ (311 : ℤ) := pow_two_le_pow_ten
          _ ≤ 10 ^ d.size := hmono (by omega)
          _ ≤ 10 * d.toRat := pow_size_le hnot.1
      exact (Magnitude.nearest?_of_le (le_of_mul_le_mul_left htimes (by norm_num))).symm
    · rfl

/-! ### The same value -/

theorem toRat_strip (d : Decimal) : d.strip.toRat = d.toRat := by
  fun_induction strip d with
  | case1 d h ih =>
      have hten : (d.digits : ℚ) = (d.digits / 10 : Nat) * 10 := by
        exact_mod_cast (Nat.div_mul_cancel (Nat.dvd_of_mod_eq_zero h.2)).symm
      rw [ih, toRat, toRat, hten, zpow_add_one₀ (by norm_num)]
      ring
  | case2 d h => rfl

end Decimal

namespace Magnitude

theorem toRat_exact (m : Magnitude) : m.exact.toRat = m.toRat := by
  unfold exact
  split
  · rename_i h
    have hpow : (2 : ℚ) ^ m.exponent.toNat = 2 ^ m.exponent := by
      rw [← zpow_natCast, Int.toNat_of_nonneg h]
    rw [Decimal.toRat, toRat, Nat.shiftLeft_eq, zpow_zero, mul_one, Nat.cast_mul, Nat.cast_pow,
      Nat.cast_ofNat, hpow]
  · rename_i h
    have hfive : (5 : ℚ) ^ (-m.exponent).toNat * 5 ^ m.exponent = 1 := by
      rw [← zpow_natCast, Int.toNat_of_nonneg (by omega), ← zpow_add₀ (by norm_num),
        neg_add_cancel, zpow_zero]
    have hten : (10 : ℚ) ^ m.exponent = 5 ^ m.exponent * 2 ^ m.exponent := by
      rw [← mul_zpow]
      norm_num
    have hcast : ((Nat.pow 5 (-m.exponent).toNat : Nat) : ℚ) = 5 ^ (-m.exponent).toNat :=
      Nat.cast_pow 5 _
    rw [Decimal.toRat, toRat, Nat.cast_mul, hcast, hten]
    linear_combination (m.mantissa : ℚ) * 2 ^ m.exponent * hfive

theorem nearest?_zero : nearest? 0 = some zero := nearest?_of_lt le_rfl (by positivity)

/-- **The decimal that is written for a magnitude reads as that magnitude.** -/
theorem nearest?_shortest (tie : Tie) (m : Magnitude) : (m.shortest tie).nearest? = some m := by
  rw [Decimal.nearest?_eq]
  unfold shortest
  split
  · rename_i h
    rw [h, Decimal.toRat, Nat.cast_zero, zero_mul, nearest?_zero]
  · simp only [Decimal.toRat_strip]
    cases hfound : (List.range 17).findSome? fun (n : Nat) =>
        (neighbours tie m.toRat (m.size - (n + 1))).find? fun d => nearest? d.toRat = some m with
    | none => rw [Option.getD_none, toRat_exact, nearest?_toRat]
    | some d =>
        obtain ⟨n, -, hn⟩ := List.exists_of_findSome?_eq_some hfound
        simpa using List.find?_some hn

/-- Only zero is written without a digit other than zero. -/
theorem eq_zero_of_digits_shortest {tie : Tie} {m : Magnitude} (h : (m.shortest tie).digits = 0) :
    m = zero := by
  have hread := nearest?_shortest tie m
  rw [Decimal.nearest?, if_pos (.inl h)] at hread
  exact (Option.some.inj hread).symm

end Magnitude
end PieceSequencer
