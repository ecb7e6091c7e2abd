import Mathlib.Algebra.Order.Field.Power
import Mathlib.Data.Rat.Floor
import Mathlib.Tactic.FieldSimp
import Mathlib.Tactic.Linarith
import Mathlib.Tactic.Positivity
import Mathlib.Tactic.Ring
import PieceSequencer.Binary64.Rounding

/-! # Rounding leaves the numbers of the format alone

A value and the whole number that it is rounded to are at most one half apart
(`abs_roundHalfEven_sub_le`).  The unit that a value is rounded to is determined by two bounds
(`Magnitude.IsUnit`): it is the least one of the format that keeps the value below `2 ^ 53` units.
A magnitude is a whole number of its own unit, so it is its own nearest magnitude
(`Magnitude.nearest?_toRat`).  What is too small rounds to zero, and nothing is near what is too
large. -/

namespace PieceSequencer

/-! ### Whole numbers -/

theorem floor_bounds {q : ℚ} (h : 0 ≤ q) :
    (q.floor.toNat : ℚ) ≤ q ∧ q < q.floor.toNat + 1 := by
  have hcast : ((q.floor.toNat : ℤ) : ℚ) = ⌊q⌋ :=
    congrArg _ (Int.toNat_of_nonneg (Int.floor_nonneg.mpr h))
  rw [Int.cast_natCast] at hcast
  rw [hcast]
  exact ⟨Int.floor_le q, Int.lt_floor_add_one q⟩

theorem abs_roundHalfEven_sub_le {q : ℚ} (h : 0 ≤ q) : |(roundHalfEven q : ℚ) - q| ≤ 1 / 2 := by
  obtain ⟨hlow, hhigh⟩ := floor_bounds h
  rw [abs_le]
  unfold roundHalfEven
  simp only
  split
  · rename_i hdown
    have hexcess : q - q.floor.toNat ≤ 1 / 2 := hdown.elim le_of_lt fun h => h.1.le
    constructor <;> linarith
  · rename_i hup
    have hexcess : 1 / 2 ≤ q - q.floor.toNat := not_lt.mp fun h => hup (.inl h)
    push_cast
    constructor <;> linarith

/-- Of two equally near whole numbers the even one is taken. -/
theorem roundHalfEven_add_half (n : Nat) :
    roundHalfEven (n + 1 / 2) = if n % 2 = 0 then n else n + 1 := by
  have hfloor : ((n : ℚ) + 1 / 2).floor.toNat = n := by
    have hn : ⌊(n : ℚ) + 1 / 2⌋ = n :=
      Int.floor_eq_iff.mpr ⟨by push_cast; linarith, by push_cast; linarith⟩
    rw [show ((n : ℚ) + 1 / 2).floor = ⌊(n : ℚ) + 1 / 2⌋ from rfl, hn, Int.toNat_natCast]
  simp only [roundHalfEven, hfloor, add_sub_cancel_left, lt_irrefl, true_and, false_or]

theorem roundHalfEven_le {q : ℚ} {n : Nat} (h : 0 ≤ q) (hlt : q < n + 1 / 2) :
    roundHalfEven q ≤ n := by
  have hround := (abs_le.mp (abs_roundHalfEven_sub_le h)).2
  have hcast : (roundHalfEven q : ℚ) < n + 1 := by linarith
  exact Nat.lt_succ_iff.mp (by exact_mod_cast hcast)

theorem le_roundHalfEven {q : ℚ} {n : Nat} (hlt : n ≤ q) : n ≤ roundHalfEven q := by
  have hround := (abs_le.mp (abs_roundHalfEven_sub_le ((Nat.cast_nonneg n).trans hlt))).1
  have hcast : (n : ℚ) < roundHalfEven q + 1 := by linarith
  exact Nat.lt_succ_iff.mp (by exact_mod_cast hcast)

theorem roundHalfEven_natCast (n : Nat) : roundHalfEven n = n :=
  le_antisymm (roundHalfEven_le (Nat.cast_nonneg n) (lt_add_of_pos_right _ one_half_pos))
    (le_roundHalfEven le_rfl)

/-! ### Powers of two -/

theorem zpow_two_le_iff {a b : ℤ} : (2 : ℚ) ^ a ≤ 2 ^ b ↔ a ≤ b :=
  zpow_le_zpow_iff_right₀ (by norm_num)

theorem zpow_two_lt_iff {a b : ℤ} : (2 : ℚ) ^ a < 2 ^ b ↔ a < b :=
  zpow_lt_zpow_iff_right₀ (by norm_num)

/-- A power of two in units of a smaller one. -/
theorem zpow_two_eq {a b : ℤ} (h : a ≤ b) : (2 : ℚ) ^ b = (2 ^ (b - a).toNat : Nat) * 2 ^ a := by
  have hcast : ((b - a).toNat : ℤ) = b - a := Int.toNat_of_nonneg (by omega)
  rw [Nat.cast_pow, Nat.cast_ofNat, ← zpow_natCast, hcast, ← zpow_add₀ two_ne_zero,
    sub_add_cancel]

namespace Magnitude

theorem toRat_nonneg (m : Magnitude) : 0 ≤ m.toRat := by
  unfold toRat
  positivity

/-! ### Units -/

/-- The exponent of the unit of a value. -/
structure IsUnit (q : ℚ) (e : ℤ) : Prop where
  le : -1074 ≤ e
  lt : q < 2 ^ (e + 53)
  least : e = -1074 ∨ 2 ^ (e + 52) ≤ q

/-- A power of two that a value reaches is below `2 ^ 53` of its units. -/
theorem IsUnit.lt_of_pow_le {q : ℚ} {e a : ℤ} (h : IsUnit q e) (hle : 2 ^ a ≤ q) : a < e + 53 :=
  zpow_two_lt_iff.mp (hle.trans_lt h.lt)

/-- A larger value has no smaller unit. -/
theorem IsUnit.exponent_mono {q q' : ℚ} {e e' : ℤ} (h : IsUnit q e) (h' : IsUnit q' e')
    (hle : q ≤ q') : e ≤ e' := by
  rcases h.least with rfl | hleast
  · exact h'.le
  · have := h'.lt_of_pow_le (hleast.trans hle)
    omega

/-- A value has one unit. -/
theorem IsUnit.unique {q : ℚ} {e e' : ℤ} (h : IsUnit q e) (h' : IsUnit q e') : e = e' :=
  le_antisymm (h.exponent_mono h' le_rfl) (h'.exponent_mono h le_rfl)

/-- The binary logarithms of numerator and denominator give that of a value up to one. -/
theorem log2_bounds {q : ℚ} (h : 0 < q) :
    (2 : ℚ) ^ ((q.num.natAbs.log2 : ℤ) - q.den.log2 - 1) ≤ q ∧
      q < 2 ^ ((q.num.natAbs.log2 : ℤ) - q.den.log2 + 1) := by
  have hq : q = q.num.natAbs / q.den := by
    conv_lhs => rw [← Rat.num_div_den q]
    rw [Nat.cast_natAbs, abs_of_pos (Rat.num_pos.mpr h)]
  have hnum : q.num.natAbs ≠ 0 := Int.natAbs_ne_zero.mpr (Rat.num_pos.mpr h).ne'
  have hden : (0 : ℚ) < q.den := by exact_mod_cast q.den_pos
  have hnumLow : (2 : ℚ) ^ (q.num.natAbs.log2 : ℤ) ≤ q.num.natAbs := by
    exact_mod_cast Nat.log2_self_le hnum
  have hnumHigh : (q.num.natAbs : ℚ) < 2 ^ ((q.num.natAbs.log2 : ℤ) + 1) := by
    exact_mod_cast Nat.lt_log2_self
  have hdenLow : (2 : ℚ) ^ (q.den.log2 : ℤ) ≤ q.den := by
    exact_mod_cast Nat.log2_self_le q.den_nz
  have hdenHigh : (q.den : ℚ) < 2 ^ ((q.den.log2 : ℤ) + 1) := by
    exact_mod_cast Nat.lt_log2_self
  generalize (q.num.natAbs.log2 : ℤ) = a at *
  generalize (q.den.log2 : ℤ) = b at *
  rw [hq]
  constructor
  · rw [le_div_iff₀ hden]
    calc (2 : ℚ) ^ (a - b - 1) * q.den ≤ 2 ^ (a - b - 1) * 2 ^ (b + 1) := by gcongr
      _ = 2 ^ a := by rw [← zpow_add₀ two_ne_zero]; congr 1; ring
      _ ≤ q.num.natAbs := hnumLow
  · rw [div_lt_iff₀ hden]
    calc (q.num.natAbs : ℚ) < 2 ^ (a + 1) := hnumHigh
      _ = 2 ^ (a - b + 1) * 2 ^ b := by rw [← zpow_add₀ two_ne_zero]; congr 1; ring
      _ ≤ 2 ^ (a - b + 1) * q.den := by gcongr

theorem isUnit_unitExponent {q : ℚ} (h : 0 ≤ q) : IsUnit q (unitExponent q) := by
  unfold unitExponent
  by_cases hzero : q = 0
  · rw [if_pos hzero, hzero]
    exact ⟨le_rfl, by positivity, .inl rfl⟩
  rw [if_neg hzero]
  obtain ⟨hlow, hhigh⟩ := log2_bounds (lt_of_le_of_ne h (Ne.symm hzero))
  generalize (q.num.natAbs.log2 : ℤ) - q.den.log2 = lead at *
  simp only
  -- the logarithms may be one too high, so the guess is the unit or the one below it
  by_cases hlt : q < 2 ^ (max (-1074) (lead - 53) + 53)
  · rw [if_pos hlt]
    refine ⟨le_max_left _ _, hlt, ?_⟩
    rcases le_total (lead - 53) (-1074) with hle | hle
    · exact .inl (max_eq_left hle)
    · exact .inr ((zpow_two_le_iff.mpr (by omega)).trans hlow)
  · rw [if_neg hlt]
    refine ⟨by omega, hhigh.trans_le (zpow_two_le_iff.mpr (by omega)), .inr ?_⟩
    rw [show max (-1074) (lead - 53) + 1 + 52 = max (-1074) (lead - 53) + 53 by ring]
    exact not_lt.mp hlt

theorem isUnit_toRat (m : Magnitude) : IsUnit m.toRat m.exponent := by
  have hpos : (0 : ℚ) < 2 ^ m.exponent := by positivity
  refine ⟨m.le_exponent, ?_, m.full.imp_right fun hfull => ?_⟩
  · have hlt : (m.mantissa : ℚ) < 2 ^ (53 : ℤ) := by exact_mod_cast m.mantissa_lt
    rw [add_comm, zpow_add₀ (by norm_num), toRat]
    exact mul_lt_mul_of_pos_right hlt hpos
  · have hle : (2 : ℚ) ^ (52 : ℤ) ≤ m.mantissa := by exact_mod_cast hfull
    rw [add_comm, zpow_add₀ (by norm_num), toRat]
    exact mul_le_mul_of_nonneg_right hle hpos.le

theorem unitExponent_toRat (m : Magnitude) : unitExponent m.toRat = m.exponent :=
  (isUnit_unitExponent m.toRat_nonneg).unique m.isUnit_toRat

/-! ### Nearest magnitudes -/

/-- **A magnitude is its own nearest magnitude.** -/
theorem nearest?_toRat (m : Magnitude) : nearest? m.toRat = some m := by
  have hscaled : m.toRat / 2 ^ m.exponent = m.mantissa :=
    mul_div_cancel_right₀ _ (by positivity)
  simp only [nearest?, unitExponent_toRat, hscaled, roundHalfEven_natCast]
  rw [if_neg m.mantissa_lt.ne, ofParts?_self]

/-- Less than half of the least positive magnitude rounds to zero. -/
theorem nearest?_of_lt {q : ℚ} (h : 0 ≤ q) (hlt : q < 2 ^ (-1075 : ℤ)) :
    nearest? q = some zero := by
  have hunit : IsUnit q (-1074) :=
    ⟨le_rfl, hlt.trans_le (zpow_two_le_iff.mpr (by norm_num)), .inl rfl⟩
  have hexponent : unitExponent q = -1074 := (isUnit_unitExponent h).unique hunit
  have hpow : (0 : ℚ) < 2 ^ (-1074 : ℤ) := by positivity
  have hhalf : q / 2 ^ (-1074 : ℤ) < (0 : Nat) + 1 / 2 := by
    rw [div_lt_iff₀ hpow]
    have hstep : (2 : ℚ) ^ (-1 + -1074 : ℤ) = 2 ^ (-1 : ℤ) * 2 ^ (-1074 : ℤ) :=
      zpow_add₀ two_ne_zero _ _
    rwa [Nat.cast_zero, zero_add, one_div, ← zpow_neg_one, ← hstep]
  have hround := Nat.le_zero.mp (roundHalfEven_le (div_nonneg h hpow.le) hhalf)
  simp only [nearest?, hexponent, hround]
  rfl

/-- No magnitude is near a value of `2 ^ 1024` or more. -/
theorem nearest?_of_le {q : ℚ} (h : 2 ^ (1024 : ℤ) ≤ q) : nearest? q = none := by
  have hlt := (isUnit_unitExponent (le_trans (by positivity) h)).lt_of_pow_le h
  have hnone : ∀ mantissa (e : ℤ), unitExponent q ≤ e → ofParts? mantissa e = none :=
    fun mantissa e he => dif_neg fun hparts => by omega
  unfold nearest?
  simp only [hnone _ _ le_rfl, hnone _ _ (Int.le_add_one le_rfl), ite_self]

end Magnitude
end PieceSequencer
