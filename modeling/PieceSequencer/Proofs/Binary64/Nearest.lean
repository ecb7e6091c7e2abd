import PieceSequencer.Proofs.Binary64.Rounding

/-! # What a value is rounded to

Without a largest magnitude a non-negative value would be rounded to `Magnitude.rounded`, a multiple
of its unit at most half a unit away, and so it is up to the largest one
(`Magnitude.exists_nearest?`).  A value that is itself a multiple of its unit is left alone
(`Magnitude.rounded_eq_self`). -/

namespace PieceSequencer

namespace Magnitude
variable {q : ℚ} {e : ℤ}

/-! ### Rounding -/

/-- What a non-negative value would be rounded to if there were no largest magnitude. -/
def rounded (q : ℚ) : ℚ := roundHalfEven (q / 2 ^ unitExponent q) * 2 ^ unitExponent q

theorem IsUnit.rounded_eq (hunit : IsUnit q e) (h : 0 ≤ q) :
    rounded q = roundHalfEven (q / 2 ^ e) * 2 ^ e := by
  rw [rounded, (isUnit_unitExponent h).unique hunit]

theorem abs_rounded_sub_le (hunit : IsUnit q e) (h : 0 ≤ q) : |rounded q - q| ≤ 2 ^ e / 2 := by
  have hpos : (0 : ℚ) < 2 ^ e := by positivity
  have hround := abs_roundHalfEven_sub_le (div_nonneg h hpos.le)
  have hscale : rounded q - q = (roundHalfEven (q / 2 ^ e) - q / 2 ^ e) * 2 ^ e := by
    rw [hunit.rounded_eq h, sub_mul, div_mul_cancel₀ _ hpos.ne']
  calc |rounded q - q| = |(roundHalfEven (q / 2 ^ e) : ℚ) - q / 2 ^ e| * 2 ^ e := by
        rw [hscale, abs_mul, abs_of_pos hpos]
    _ ≤ 1 / 2 * 2 ^ e := mul_le_mul_of_nonneg_right hround hpos.le
    _ = 2 ^ e / 2 := by ring

/-- **A multiple of its own unit is left alone.** -/
theorem rounded_eq_self (hunit : IsUnit q e) {e' : ℤ} (he : e ≤ e') {n : Nat}
    (hq : q = n * 2 ^ e') : rounded q = q := by
  have hpos : (0 : ℚ) < 2 ^ e := by positivity
  have hnonneg : 0 ≤ q := by rw [hq]; positivity
  have hscaled : q / 2 ^ e = (n * 2 ^ (e' - e).toNat : Nat) := by
    rw [div_eq_iff hpos.ne', hq, zpow_two_eq he, Nat.cast_mul, mul_assoc]
  rw [hunit.rounded_eq hnonneg, hscaled, roundHalfEven_natCast, ← hscaled,
    div_mul_cancel₀ _ hpos.ne']

theorem exists_ofParts? {mantissa : Nat} (hlt : mantissa < 2 ^ 53) (hlow : -1074 ≤ e)
    (hhigh : e ≤ 971) (hfull : e = -1074 ∨ 2 ^ 52 ≤ mantissa) :
    ∃ m, ofParts? mantissa e = some m ∧ m.toRat = mantissa * 2 ^ e :=
  ⟨⟨mantissa, e, hlt, hlow, hhigh, hfull⟩, dif_pos ⟨hlt, hlow, hhigh, hfull⟩, rfl⟩

theorem IsUnit.div_lt (hunit : IsUnit q e) : q / 2 ^ e < 2 ^ 53 := by
  rw [div_lt_iff₀ (by positivity)]
  refine hunit.lt.trans_eq ?_
  rw [add_comm, zpow_add₀ two_ne_zero]
  norm_num

theorem IsUnit.le_div (hunit : IsUnit q e) : e = -1074 ∨ 2 ^ 52 ≤ q / 2 ^ e := by
  refine hunit.least.imp_right fun hleast => ?_
  rw [le_div_iff₀ (by positivity)]
  refine le_trans (le_of_eq ?_) hleast
  rw [add_comm, zpow_add₀ two_ne_zero]
  norm_num

/-- **There is a nearest magnitude up to half a unit beyond the largest.** -/
theorem exists_nearest? (h : 0 ≤ q) (hlt : q < (2 ^ 53 - 1 / 2) * 2 ^ (971 : ℤ)) :
    ∃ m, nearest? q = some m ∧ m.toRat = rounded q := by
  have hunit := isUnit_unitExponent h
  unfold nearest? rounded
  simp only
  generalize unitExponent q = e at hunit ⊢
  have hscaled : 0 ≤ q / 2 ^ e := div_nonneg h (by positivity)
  have hfull : e = -1074 ∨ 2 ^ 52 ≤ roundHalfEven (q / 2 ^ e) :=
    hunit.le_div.imp_right fun hle => le_roundHalfEven (by exact_mod_cast hle)
  have hhigh : e ≤ 971 := by
    have hpow : (2 : ℚ) ^ (e + 52) < 2 ^ (1024 : ℤ) ∨ e = -1074 := by
      refine hunit.least.symm.imp_left fun hleast => (hleast.trans_lt hlt).trans ?_
      rw [show (1024 : ℤ) = 53 + 971 from rfl, zpow_add₀ two_ne_zero]
      exact mul_lt_mul_of_pos_right (by norm_num) (by positivity)
    rw [zpow_two_lt_iff] at hpow
    omega
  by_cases htop : roundHalfEven (q / 2 ^ e) = 1 <<< 53
  · -- at the largest exponent the value is too small to reach the next power of two
    have hnext : e + 1 ≤ 971 := by
      by_contra hlast
      obtain rfl : e = 971 := by omega
      rw [← div_lt_iff₀ (by positivity)] at hlt
      have hround : roundHalfEven (q / 2 ^ (971 : ℤ)) ≤ 2 ^ 53 - 1 :=
        roundHalfEven_le hscaled (hlt.trans_eq (by norm_num))
      omega
    have hlow : -1074 ≤ e + 1 := hunit.le.trans (by omega)
    obtain ⟨m, hm, hvalue⟩ :=
      exists_ofParts? (show 1 <<< 52 < 2 ^ 53 by decide) hlow hnext (.inr le_rfl)
    refine ⟨m, by rw [if_pos htop, hm], ?_⟩
    rw [hvalue, htop, zpow_add_one₀ two_ne_zero, show 1 <<< 53 = 1 <<< 52 * 2 by decide,
      Nat.cast_mul, Nat.cast_ofNat]
    ring
  · have hmantissa : roundHalfEven (q / 2 ^ e) ≤ 2 ^ 53 :=
      roundHalfEven_le hscaled (hunit.div_lt.trans (by norm_num))
    obtain ⟨m, hm, hvalue⟩ := exists_ofParts? (lt_of_le_of_ne hmantissa htop) hunit.le hhigh hfull
    exact ⟨m, by rw [if_neg htop, hm], hvalue⟩

end Magnitude
end PieceSequencer
