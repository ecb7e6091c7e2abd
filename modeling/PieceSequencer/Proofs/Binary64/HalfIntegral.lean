import PieceSequencer.Proofs.Binary64.Nearest

/-! # Which numbers are taken for half-integral

`Binary64.isHalfIntegral` subtracts one half before it looks for a whole number, and the difference
is rounded.  Above zero the difference is exact up to `2 ^ 52`, and beyond it is always whole
(`Magnitude.isWhole_rounded_sub_half_iff`).  Below zero the difference may have a larger unit than
the number; it is then rounded to a whole number at the neighbour of a half-integral number that
follows each power of two, and at the neighbour of `-1 / 2` towards zero
(`Magnitude.isWhole_rounded_add_half_iff`). -/

namespace PieceSequencer

/-! ### Whole and half-integral values -/

/-- A whole number. -/
def IsWhole (q : ℚ) : Prop := ∃ n : ℤ, q = n

/-- A value half-way between two whole numbers. -/
def IsHalfway (q : ℚ) : Prop := ∃ n : ℤ, q = n + 1 / 2

theorem isHalfway_iff_sub {q : ℚ} : IsHalfway q ↔ IsWhole (q - 1 / 2) := by
  unfold IsHalfway IsWhole
  simp only [sub_eq_iff_eq_add]

theorem isHalfway_iff_add {q : ℚ} : IsHalfway q ↔ IsWhole (q + 1 / 2) := by
  constructor
  · rintro ⟨n, rfl⟩
    exact ⟨n + 1, by push_cast; ring⟩
  · rintro ⟨n, hn⟩
    exact ⟨n - 1, by push_cast; linarith⟩

theorem isHalfway_neg_iff {q : ℚ} : IsHalfway (-q) ↔ IsHalfway q := by
  have hneg : ∀ {p : ℚ}, IsHalfway p → IsHalfway (-p) := by
    rintro p ⟨n, rfl⟩
    exact ⟨-n - 1, by push_cast; ring⟩
  exact ⟨fun h => by simpa using hneg h, hneg⟩

theorem isWhole_neg_iff {q : ℚ} : IsWhole (-q) ↔ IsWhole q := by
  have hneg : ∀ {p : ℚ}, IsWhole p → IsWhole (-p) := by
    rintro p ⟨n, rfl⟩
    exact ⟨-n, by push_cast; ring⟩
  exact ⟨fun h => by simpa using hneg h, hneg⟩

/-- There is no whole number strictly between two neighbours. -/
theorem not_isWhole_of_lt {q : ℚ} {n : ℤ} (hlow : n < q) (hhigh : q < n + 1) : ¬ IsWhole q := by
  rintro ⟨k, rfl⟩
  have hlow : n < k := by exact_mod_cast hlow
  have hhigh : k < n + 1 := by exact_mod_cast hhigh
  omega

/-- A whole number less than one away from another is that one. -/
theorem eq_of_lt_add_one {n k : ℤ} (hbelow : (n : ℚ) < k + 1) (habove : (k : ℚ) < n + 1) :
    n = k := by
  have hbelow : n < k + 1 := by exact_mod_cast hbelow
  have habove : k < n + 1 := by exact_mod_cast habove
  omega

theorem IsWhole.not_isHalfway {q : ℚ} (h : IsWhole q) : ¬ IsHalfway q := by
  obtain ⟨k, rfl⟩ := h
  rw [isHalfway_iff_sub]
  exact not_isWhole_of_lt (n := k - 1) (by push_cast; linarith) (by push_cast; linarith)

/-! ### Units of a magnitude -/

theorem isWhole_units (n : Nat) {e : ℤ} (h : 0 ≤ e) : IsWhole (n * 2 ^ e) :=
  ⟨n * 2 ^ e.toNat, by rw [← Int.toNat_of_nonneg h, zpow_natCast]; push_cast; rfl⟩

theorem exists_units_sub {a b : ℚ} {e : ℤ} {m n : Nat} (ha : a = m * 2 ^ e) (hb : b = n * 2 ^ e)
    (hle : b ≤ a) : ∃ c : Nat, a - b = c * 2 ^ e := by
  have hpos : (0 : ℚ) < 2 ^ e := by positivity
  rw [ha, hb] at hle
  have hnat : n ≤ m := by exact_mod_cast le_of_mul_le_mul_right hle hpos
  exact ⟨m - n, by rw [ha, hb, Nat.cast_sub hnat, sub_mul]⟩

/-- A positive number of units is at least one of them. -/
theorem le_of_units {q : ℚ} (h : 0 < q) {e : ℤ} {n : Nat} (hq : q = n * 2 ^ e) : 2 ^ e ≤ q := by
  have hn : 1 ≤ n := Nat.one_le_iff_ne_zero.mpr fun hzero => by simp [hq, hzero] at h
  rw [hq]
  exact le_mul_of_one_le_left (by positivity) (by exact_mod_cast hn)

/-- One half in units below it. -/
theorem half_eq {e : ℤ} (h : e < 0) : (1 / 2 : ℚ) = (2 ^ (-1 - e).toNat : Nat) * 2 ^ e := by
  rw [← zpow_two_eq (by omega : e ≤ -1), zpow_neg_one, one_div]

namespace Magnitude
variable {m : Magnitude} {q : ℚ} {e : ℤ}

theorem le_toRat_of_exponent (h : 0 ≤ m.exponent) : 2 ^ 52 ≤ m.toRat := by
  have hleast := m.isUnit_toRat.least.resolve_left (by omega)
  refine le_trans ?_ hleast
  exact_mod_cast zpow_two_le_iff.mpr (by omega : (52 : ℤ) ≤ m.exponent + 52)

theorem toRat_lt_of_exponent (h : m.exponent < 0) : m.toRat < 2 ^ 52 := by
  refine m.isUnit_toRat.lt.trans_le ?_
  exact_mod_cast zpow_two_le_iff.mpr (by omega : m.exponent + 53 ≤ (52 : ℤ))

theorem isWhole_toRat (h : 0 ≤ m.exponent) : IsWhole m.toRat := isWhole_units m.mantissa h

/-- Beyond `2 ^ 52` nothing but whole numbers is left. -/
theorem isWhole_rounded (h : 2 ^ 52 ≤ q) : IsWhole (rounded q) := by
  have hunit := isUnit_unitExponent (le_trans (by norm_num) h)
  have hpow : (2 : ℚ) ^ (52 : ℤ) ≤ q := by exact_mod_cast h
  have := hunit.lt_of_pow_le hpow
  exact isWhole_units _ (by omega)

theorem rounded_le_pow (hunit : IsUnit q e) (h : 0 ≤ q) {b : ℤ} (hle : q ≤ 2 ^ b) (hb : e ≤ b) :
    rounded q ≤ 2 ^ b := by
  have hpos : (0 : ℚ) < 2 ^ e := by positivity
  rw [hunit.rounded_eq h, zpow_two_eq hb]
  refine mul_le_mul_of_nonneg_right ?_ hpos.le
  have hscaled : q / 2 ^ e ≤ (2 ^ (b - e).toNat : Nat) := by
    rwa [div_le_iff₀ hpos, ← zpow_two_eq hb]
  have hround := roundHalfEven_le (div_nonneg h hpos.le)
    (hscaled.trans_lt (lt_add_of_pos_right _ one_half_pos))
  exact_mod_cast hround

theorem rounded_pos (hunit : IsUnit q e) (hle : 2 ^ e ≤ q) : 0 < rounded q := by
  have hpos : (0 : ℚ) < 2 ^ e := by positivity
  rw [hunit.rounded_eq (hpos.le.trans hle)]
  refine mul_pos ?_ hpos
  have hone : 1 ≤ roundHalfEven (q / 2 ^ e) :=
    le_roundHalfEven (by rwa [Nat.cast_one, le_div_iff₀ hpos, one_mul])
  exact_mod_cast hone

/-- A positive number of the format reaches its unit. -/
theorem unit_le (hunit : IsUnit q e) (h : 0 < q) {e' : ℤ} (he : -1074 ≤ e') {n : Nat}
    (hq : q = n * 2 ^ e') : 2 ^ e ≤ q := by
  rcases hunit.least with rfl | hleast
  · exact (zpow_two_le_iff.mpr he).trans (le_of_units h hq)
  · exact (zpow_two_le_iff.mpr (by omega)).trans hleast

/-! ### Above zero -/

theorem isUnit_half : IsUnit (1 / 2) (-53) := ⟨by norm_num, by norm_num, .inr (by norm_num)⟩

/-- Between zero and one half the difference neither vanishes nor grows. -/
theorem not_isWhole_rounded_half_sub (hexp : m.exponent < 0) (h : m.toRat < 1 / 2) :
    ¬ IsWhole (rounded (1 / 2 - m.toRat)) := by
  obtain ⟨c, hc⟩ := exists_units_sub (half_eq hexp) rfl h.le
  have hpos : 0 < 1 / 2 - m.toRat := sub_pos.mpr h
  have hle : 1 / 2 - m.toRat ≤ 1 / 2 := sub_le_self _ m.toRat_nonneg
  have hunit := isUnit_unitExponent hpos.le
  have hexponent := hunit.exponent_mono isUnit_half hle
  have hlow := rounded_pos hunit (unit_le hunit hpos m.le_exponent hc)
  have hhigh := rounded_le_pow hunit hpos.le (b := -1) (by norm_num; linarith [m.toRat_nonneg])
    (by omega)
  rw [zpow_neg_one] at hhigh
  exact not_isWhole_of_lt (n := 0) (by simpa using hlow) (by push_cast; linarith)

/-- **One half less than a magnitude is whole after rounding** just if it is whole or the magnitude
is beyond `2 ^ 52`. -/
theorem isWhole_rounded_sub_half_iff (m : Magnitude) :
    IsWhole (rounded |m.toRat - 1 / 2|) ↔ IsHalfway m.toRat ∨ 2 ^ 52 < m.toRat := by
  rcases lt_or_ge m.exponent 0 with hexp | hexp
  · have hlt := toRat_lt_of_exponent hexp
    rw [or_iff_left (not_lt.mpr hlt.le)]
    rcases le_or_gt (1 / 2) m.toRat with hhalf | hhalf
    · obtain ⟨c, hc⟩ := exists_units_sub rfl (half_eq hexp) hhalf
      have hnonneg : 0 ≤ m.toRat - 1 / 2 := sub_nonneg.mpr hhalf
      have hunit := isUnit_unitExponent hnonneg
      have hexponent := hunit.exponent_mono m.isUnit_toRat (sub_le_self _ one_half_pos.le)
      rw [abs_of_nonneg hnonneg, rounded_eq_self hunit hexponent hc, isHalfway_iff_sub]
    · rw [abs_sub_comm, abs_of_pos (sub_pos.mpr hhalf)]
      refine iff_of_false (not_isWhole_rounded_half_sub hexp hhalf) ?_
      rw [isHalfway_iff_sub]
      exact not_isWhole_of_lt (n := -1) (by push_cast; linarith [m.toRat_nonneg])
        (by push_cast; linarith)
  · have hle := le_toRat_of_exponent hexp
    obtain ⟨n, hn⟩ := isWhole_toRat hexp
    have hnot := (isWhole_toRat hexp).not_isHalfway
    rw [or_iff_right hnot, abs_of_nonneg (by linarith)]
    rcases hle.eq_or_lt with heq | hlt
    · -- at `2 ^ 52` itself the difference still has a unit of one half
      rw [← heq]
      have hunit : IsUnit (2 ^ 52 - 1 / 2) (-1) := ⟨by norm_num, by norm_num, .inr (by norm_num)⟩
      have hunits : (2 ^ 52 - 1 / 2 : ℚ) = (2 ^ 53 - 1 : Nat) * 2 ^ (-1 : ℤ) := by norm_num
      rw [rounded_eq_self hunit le_rfl hunits, ← isHalfway_iff_sub, heq]
      exact iff_of_false hnot (by rw [← heq]; exact lt_irrefl _)
    · have hnext : (2 ^ 52 + 1 : ℚ) ≤ m.toRat := by
        rw [hn] at hlt ⊢
        have hint : (2 ^ 52 : ℤ) < n := by exact_mod_cast hlt
        exact_mod_cast (hint : (2 ^ 52 + 1 : ℤ) ≤ n)
      exact iff_of_true (isWhole_rounded (by linarith)) hlt

/-! ### Below zero -/

/-- A magnitude next to a half-integral one whose sum with one half is nearly a power of two. -/
def NextToHalfway (q : ℚ) : Prop :=
  q = 1 / 2 - 1 / 2 ^ 54 ∨ ∃ k < 52, q = 2 ^ k - 1 / 2 + 2 ^ k / 2 ^ 53

theorem zpow_two_sub (k j : Nat) : (2 : ℚ) ^ ((k : ℤ) - j) = 2 ^ k / 2 ^ j := by
  rw [zpow_sub₀ two_ne_zero, zpow_natCast, zpow_natCast]

/-- Whole numbers stay whole. -/
theorem isWhole_rounded_of_isWhole (h : 0 ≤ q) (hwhole : IsWhole q) : IsWhole (rounded q) := by
  rcases le_or_gt (2 ^ 52) q with hle | hlt
  · exact isWhole_rounded hle
  · have hunit := isUnit_unitExponent h
    have htop : IsUnit (2 ^ 52) 0 := ⟨by norm_num, by norm_num, .inr (by norm_num)⟩
    obtain ⟨n, rfl⟩ := hwhole
    lift n to ℕ using by exact_mod_cast h
    rw [rounded_eq_self hunit (hunit.exponent_mono htop hlt.le) (n := n) (by simp)]
    exact ⟨n, rfl⟩

/-- The sum is half-way between two multiples of its unit, and the power of two is the even one. -/
theorem isWhole_rounded_of_nextToHalfway (h : NextToHalfway q) :
    IsWhole (rounded (q + 1 / 2)) := by
  rcases h with rfl | ⟨k, hk, rfl⟩
  · have hunit : IsUnit (1 / 2 - 1 / 2 ^ 54 + 1 / 2) (-53) :=
      ⟨by norm_num, by norm_num, .inr (by norm_num)⟩
    have hscaled : (1 / 2 - 1 / 2 ^ 54 + 1 / 2 : ℚ) / 2 ^ (-53 : ℤ) =
        (2 ^ 53 - 1 : Nat) + 1 / 2 := by
      norm_num
    rw [hunit.rounded_eq (by norm_num), hscaled, roundHalfEven_add_half]
    exact ⟨1, by norm_num⟩
  · have hpow : (2 : ℚ) ^ ((k : ℤ) - 52) = 2 ^ k / 2 ^ 52 := zpow_two_sub k 52
    have hpos : (0 : ℚ) < 2 ^ k := by positivity
    have hunit : IsUnit (2 ^ k - 1 / 2 + 2 ^ k / 2 ^ 53 + 1 / 2) ((k : ℤ) - 52) := by
      refine ⟨by omega, ?_, .inr ?_⟩
      · rw [show (k : ℤ) - 52 + 53 = k + 1 by ring, zpow_add_one₀ two_ne_zero, zpow_natCast]
        linarith
      · rw [sub_add_cancel, zpow_natCast]
        linarith
    have hscaled : (2 ^ k - 1 / 2 + 2 ^ k / 2 ^ 53 + 1 / 2 : ℚ) / 2 ^ ((k : ℤ) - 52) =
        (2 ^ 52 : Nat) + 1 / 2 := by
      rw [hpow]
      field_simp
      norm_num
      ring
    have hnonneg : (0 : ℚ) ≤ 2 ^ k - 1 / 2 + 2 ^ k / 2 ^ 53 + 1 / 2 := by
      rw [sub_add_eq_add_sub, sub_add_cancel]
      positivity
    rw [hunit.rounded_eq hnonneg, hscaled, roundHalfEven_add_half, if_pos (by decide), hpow]
    exact ⟨2 ^ k, by push_cast; ring⟩

/-- The sum with one half in units of the magnitude. -/
theorem add_half_eq (hexp : m.exponent < 0) : m.toRat + 1 / 2 =
    (m.mantissa + 2 ^ (-1 - m.exponent).toNat : Nat) * 2 ^ m.exponent := by
  rw [half_eq hexp, toRat, Nat.cast_add, add_mul]

section LargerUnit
/-! The sum with one half has a larger unit than the magnitude, and is rounded to a whole number
that it is not. -/

variable (hexp : m.exponent < 0) (hlt : m.exponent < e) (hunit : IsUnit (m.toRat + 1 / 2) e)
  (hwhole : IsWhole (rounded (m.toRat + 1 / 2))) (hnot : ¬ IsWhole (m.toRat + 1 / 2))

include hlt in
theorem toRat_lt_pow : m.toRat < 2 ^ (e + 52) :=
  m.isUnit_toRat.lt.trans_le (zpow_two_le_iff.mpr (by omega))

include hlt hunit

theorem pow_le_add_half : 2 ^ (e + 52) ≤ m.toRat + 1 / 2 :=
  hunit.least.resolve_left (by have := m.le_exponent; omega)

include hexp in
theorem unit_bounds : -53 ≤ e ∧ e ≤ 0 := by
  constructor
  · have hhalf : (2 : ℚ) ^ (-1 : ℤ) ≤ m.toRat + 1 / 2 := by
      rw [zpow_neg_one]
      linarith [m.toRat_nonneg]
    have := hunit.lt_of_pow_le hhalf
    omega
  · have hpow : (2 : ℚ) ^ (e + 52) < 2 ^ (53 : ℤ) := by
      have := toRat_lt_of_exponent hexp
      refine (pow_le_add_half hlt hunit).trans_lt ?_
      norm_num
      linarith
    have := zpow_two_lt_iff.mp hpow
    omega

section AboveOne
variable {k : Nat} (hk : e = (k : ℤ) - 52)
include hk

omit hunit in
theorem toRat_lt_natPow : m.toRat < 2 ^ k := by
  have hlt := toRat_lt_pow hlt
  rwa [hk, sub_add_cancel, zpow_natCast] at hlt

theorem natPow_le_add_half : 2 ^ k ≤ m.toRat + 1 / 2 := by
  have hle := pow_le_add_half hlt hunit
  rwa [hk, sub_add_cancel, zpow_natCast] at hle

/-- The magnitude is of the unit below. -/
theorem exponent_eq : m.exponent = (k : ℤ) - 53 := by
  have hone : (1 : ℚ) ≤ 2 ^ k := one_le_pow₀ (by norm_num)
  have hhalf : (2 : ℚ) ^ ((k : ℤ) - 1) ≤ m.toRat := by
    have := natPow_le_add_half hlt hunit hk
    rw [show (2 : ℚ) ^ ((k : ℤ) - 1) = 2 ^ k / 2 ^ 1 from zpow_two_sub k 1]
    linarith
  have := m.isUnit_toRat.lt_of_pow_le hhalf
  omega

omit hlt in
theorem abs_rounded_sub_le_natPow :
    |rounded (m.toRat + 1 / 2) - (m.toRat + 1 / 2)| ≤ 2 ^ k / 2 ^ 53 := by
  have hround := abs_rounded_sub_le hunit (add_nonneg m.toRat_nonneg one_half_pos.le)
  rw [hk, show (2 : ℚ) ^ ((k : ℤ) - 52) = 2 ^ k / 2 ^ 52 from zpow_two_sub k 52] at hround
  linarith

include hexp

theorem natPow_le : (2 : ℚ) ^ k ≤ 2 ^ 52 :=
  pow_le_pow_right₀ (by norm_num) (by have := (unit_bounds hexp hlt hunit).2; omega)

include hwhole

/-- The only whole number within half a unit is the power of two. -/
theorem rounded_eq_natPow : rounded (m.toRat + 1 / 2) = 2 ^ k := by
  have hround := abs_le.mp (abs_rounded_sub_le_natPow hunit hk)
  have hlow := natPow_le_add_half hlt hunit hk
  have hhigh := toRat_lt_natPow hlt hk
  have htop := natPow_le hexp hlt hunit hk
  obtain ⟨n, hn⟩ := hwhole
  rw [hn] at hround ⊢
  have heq : n = 2 ^ k :=
    eq_of_lt_add_one (by push_cast; linarith) (by push_cast; linarith)
  rw [heq]
  push_cast
  rfl

include hnot

/-- From one on, the sum is rounded to a power of two that it exceeds by half a unit. -/
theorem eq_of_isWhole_rounded_above : k < 52 ∧ m.toRat = 2 ^ k - 1 / 2 + 2 ^ k / 2 ^ 53 := by
  have hround := abs_le.mp (abs_rounded_sub_le_natPow hunit hk)
  rw [rounded_eq_natPow hexp hlt hunit hwhole hk] at hround
  have hlow := natPow_le_add_half hlt hunit hk
  have hexcess : 0 < m.toRat + 1 / 2 - 2 ^ k :=
    sub_pos.mpr (lt_of_le_of_ne hlow fun heq => hnot ⟨2 ^ k, by rw [← heq]; push_cast; rfl⟩)
  -- the excess is a multiple of the lower unit, so it is at least half a unit as well
  have hexponent := exponent_eq hlt hunit hk
  obtain ⟨c, hc⟩ := exists_units_sub (add_half_eq hexp)
    (by rw [← zpow_natCast]; exact zpow_two_eq (by omega)) hlow
  have hleast := le_of_units hexcess hc
  rw [hexponent, show (2 : ℚ) ^ ((k : ℤ) - 53) = 2 ^ k / 2 ^ 53 from zpow_two_sub k 53] at hleast
  have heq : m.toRat = 2 ^ k - 1 / 2 + 2 ^ k / 2 ^ 53 := by linarith
  have hle : k ≤ 52 := by have := (unit_bounds hexp hlt hunit).2; omega
  refine ⟨lt_of_le_of_ne hle ?_, heq⟩
  rintro rfl
  have hhigh := toRat_lt_natPow hlt hk
  rw [heq] at hhigh
  norm_num at hhigh

end AboveOne

include hexp hwhole

/-- Below one, the sum is rounded to one, of which it falls short by half a unit. -/
theorem eq_of_isWhole_rounded_below (he : e = -53) : m.toRat = 1 / 2 - 1 / 2 ^ 54 := by
  subst he
  have hhigh : m.toRat < 1 / 2 := (toRat_lt_pow hlt).trans_eq (by norm_num)
  have hround := abs_le.mp
    (abs_rounded_sub_le hunit (add_nonneg m.toRat_nonneg one_half_pos.le))
  obtain ⟨n, hn⟩ := hwhole
  rw [hn] at hround
  norm_num at hround
  have hone : n = 1 := eq_of_lt_add_one (by push_cast; linarith)
    (by push_cast; linarith [m.toRat_nonneg])
  rw [hone, Int.cast_one] at hround
  have hquarter : (2 : ℚ) ^ (-2 : ℤ) ≤ m.toRat := by
    norm_num
    linarith
  have hexponent : m.exponent = -54 := by
    have := m.isUnit_toRat.lt_of_pow_le hquarter
    omega
  obtain ⟨c, hc⟩ := exists_units_sub (half_eq hexp) rfl hhigh.le
  have hleast := le_of_units (sub_pos.mpr hhigh) hc
  rw [hexponent] at hleast
  norm_num at hleast ⊢
  linarith

include hnot

theorem nextToHalfway_of_isWhole_rounded : NextToHalfway m.toRat := by
  obtain ⟨hlow, hhigh⟩ := unit_bounds hexp hlt hunit
  rcases hlow.eq_or_lt with heq | hlow
  · exact .inl (eq_of_isWhole_rounded_below hexp hlt hunit hwhole heq.symm)
  · obtain ⟨k, hk⟩ : ∃ k : Nat, e = (k : ℤ) - 52 := ⟨(e + 52).toNat, by omega⟩
    exact .inr ⟨k, eq_of_isWhole_rounded_above hexp hlt hunit hwhole hnot hk⟩

end LargerUnit

/-- **One half more than a magnitude is whole after rounding** just if it is whole, the magnitude
is `2 ^ 52` or more, or it is next to a half-integral one at a power of two. -/
theorem isWhole_rounded_add_half_iff (m : Magnitude) :
    IsWhole (rounded (m.toRat + 1 / 2)) ↔
      IsHalfway m.toRat ∨ 2 ^ 52 ≤ m.toRat ∨ NextToHalfway m.toRat := by
  have hnonneg : 0 ≤ m.toRat + 1 / 2 := add_nonneg m.toRat_nonneg one_half_pos.le
  constructor
  · intro hwhole
    rcases lt_or_ge m.exponent 0 with hexp | hexp
    · by_cases hsum : IsWhole (m.toRat + 1 / 2)
      · exact .inl (isHalfway_iff_add.mpr hsum)
      have hunit := isUnit_unitExponent hnonneg
      have hmono := m.isUnit_toRat.exponent_mono hunit (le_add_of_nonneg_right one_half_pos.le)
      rcases hmono.eq_or_lt with heq | hlt
      · rw [rounded_eq_self hunit heq.ge (add_half_eq hexp)] at hwhole
        exact absurd hwhole hsum
      · exact .inr (.inr (nextToHalfway_of_isWhole_rounded hexp hlt hunit hwhole hsum))
    · exact .inr (.inl (le_toRat_of_exponent hexp))
  · rintro (hhalf | hle | hnext)
    · exact isWhole_rounded_of_isWhole hnonneg (isHalfway_iff_add.mp hhalf)
    · exact isWhole_rounded (by linarith)
    · exact isWhole_rounded_of_nextToHalfway hnext

/-- A magnitude and one half more have a nearest magnitude. -/
theorem add_half_lt (m : Magnitude) : m.toRat + 1 / 2 < (2 ^ 53 - 1 / 2) * 2 ^ (971 : ℤ) := by
  have hmantissa : (m.mantissa : ℚ) + 1 ≤ 2 ^ 53 := by exact_mod_cast m.mantissa_lt
  have hpow : (2 : ℚ) ^ m.exponent ≤ 2 ^ (971 : ℤ) := zpow_two_le_iff.mpr m.exponent_le
  have hone : (2 : ℚ) ^ (0 : ℤ) < 2 ^ (971 : ℤ) := zpow_two_lt_iff.mpr (by norm_num)
  rw [zpow_zero] at hone
  rw [toRat]
  generalize (2 : ℚ) ^ (971 : ℤ) = unit at hpow hone ⊢
  calc (m.mantissa : ℚ) * 2 ^ m.exponent + 1 / 2 ≤ m.mantissa * unit + 1 / 2 := by gcongr
    _ < m.mantissa * unit + 1 / 2 * unit := by linarith
    _ = (m.mantissa + 1 - 1 / 2) * unit := by ring
    _ ≤ (2 ^ 53 - 1 / 2) * unit := by gcongr

end Magnitude

/-! ### Numbers of the format -/

namespace Binary64
open Magnitude

theorem isIntegral_iff (v : Binary64) :
    v.isIntegral = true ↔ ∃ q, v.toRat? = some q ∧ IsWhole q := by
  unfold isIntegral
  cases v.toRat? with
  | none => simp
  | some q =>
      have hint : q.isInt = true ↔ IsWhole q := by
        rw [Rat.isInt, beq_iff_eq, Rat.den_eq_one_iff]
        exact ⟨fun h => ⟨q.num, h.symm⟩, fun ⟨n, hn⟩ => by rw [hn, Rat.num_intCast]⟩
      simp [hint]

theorem isIntegral_ofSigned (negative : Bool) {q : ℚ} (h : 0 ≤ q)
    (hlt : q < (2 ^ 53 - 1 / 2) * 2 ^ (971 : ℤ)) :
    (ofSigned negative q).isIntegral = true ↔ IsWhole (rounded q) := by
  obtain ⟨m, hm, hvalue⟩ := exists_nearest? h hlt
  rw [isIntegral_iff, ofSigned, hm, ← hvalue]
  cases negative <;> simp [toRat?, isWhole_neg_iff]

/-- The values that are taken for half-integral without being so. -/
def TakenForHalfway (q : ℚ) : Prop := 2 ^ 52 < q ∨ q ≤ -2 ^ 52 ∨ NextToHalfway (-q)

theorem isHalfIntegral_positive (m : Magnitude) :
    (finite false m).isHalfIntegral = true ↔ IsWhole (rounded |m.toRat - 1 / 2|) := by
  have hlt := m.add_half_lt
  have hnonneg := m.toRat_nonneg
  show (nearest (m.toRat - 1 / 2)).isIntegral = true ↔ _
  unfold nearest
  split
  · rename_i hneg
    have hsmall := lt_of_le_of_lt (by linarith : -(m.toRat - 1 / 2) ≤ m.toRat + 1 / 2) hlt
    rw [isIntegral_ofSigned true (by linarith) hsmall, abs_of_neg hneg]
  · rename_i hle
    have hsmall := lt_of_le_of_lt (by linarith : m.toRat - 1 / 2 ≤ m.toRat + 1 / 2) hlt
    rw [isIntegral_ofSigned false (not_lt.mp hle) hsmall, abs_of_nonneg (not_lt.mp hle)]

theorem isHalfIntegral_negative (m : Magnitude) :
    (finite true m).isHalfIntegral = true ↔ IsWhole (rounded (m.toRat + 1 / 2)) := by
  have hnonneg := m.toRat_nonneg
  show (nearest (-m.toRat - 1 / 2)).isIntegral = true ↔ _
  rw [nearest, if_pos (by linarith), neg_sub, sub_neg_eq_add, add_comm,
    isIntegral_ofSigned true (by linarith) m.add_half_lt]

theorem not_nextToHalfway_of_neg {q : ℚ} (h : q ≤ 0) : ¬ NextToHalfway q := by
  rintro (rfl | ⟨k, -, rfl⟩)
  · norm_num at h
  · have hone : (1 : ℚ) ≤ 2 ^ k := one_le_pow₀ (by norm_num)
    linarith

/-- **What is taken for half-integral:** the numbers that are, all numbers above `2 ^ 52` and from
`-2 ^ 52` down, and a negative neighbour of a half-integral number at each power of two. -/
theorem isHalfIntegral_iff (v : Binary64) : v.isHalfIntegral = true ↔
    ∃ q, v.toRat? = some q ∧ (IsHalfway q ∨ TakenForHalfway q) := by
  cases v with
  | finite negative m =>
      have hnonneg := m.toRat_nonneg
      cases negative with
      | false =>
          have hlarge : TakenForHalfway m.toRat ↔ 2 ^ 52 < m.toRat := by
            refine or_iff_left ?_
            rintro (hle | hnext)
            · linarith
            · exact not_nextToHalfway_of_neg (by linarith) hnext
          rw [isHalfIntegral_positive, isWhole_rounded_sub_half_iff, ← hlarge]
          simp [toRat?]
      | true =>
          have hlarge : TakenForHalfway (-m.toRat) ↔ 2 ^ 52 ≤ m.toRat ∨ NextToHalfway m.toRat := by
            rw [TakenForHalfway, neg_neg, neg_le_neg_iff]
            exact or_iff_right (by linarith)
          rw [isHalfIntegral_negative, isWhole_rounded_add_half_iff, ← hlarge]
          simp [toRat?, isHalfway_neg_iff]
  | infinite negative => simp [isHalfIntegral, minusHalf, isIntegral, toRat?]
  | nan => simp [isHalfIntegral, minusHalf, isIntegral, toRat?]

theorem not_isWhole_of_nextToHalfway {q : ℚ} (h : NextToHalfway q) : ¬ IsWhole q := by
  rcases h with rfl | ⟨k, hk, rfl⟩
  · exact not_isWhole_of_lt (n := 0) (by norm_num) (by norm_num)
  · have hpos : (0 : ℚ) < 2 ^ k := by positivity
    have hlt : (2 : ℚ) ^ k < 2 ^ 52 := pow_lt_pow_right₀ (by norm_num) hk
    exact not_isWhole_of_lt (n := 2 ^ k - 1) (by push_cast; linarith) (by push_cast; linarith)

theorem isWhole_of_large {v : Binary64} {q : ℚ} (hq : v.toRat? = some q)
    (hlarge : 2 ^ 52 < q ∨ q ≤ -2 ^ 52) : IsWhole q := by
  have hwhole : ∀ m : Magnitude, 2 ^ 52 ≤ m.toRat → IsWhole m.toRat := fun m hle =>
    isWhole_toRat (not_lt.mp fun hexp => (toRat_lt_of_exponent hexp).not_ge hle)
  cases v with
  | finite negative m =>
      have hnonneg := m.toRat_nonneg
      obtain rfl := Option.some.inj hq
      cases negative with
      | false =>
          rw [if_neg Bool.false_ne_true] at hlarge ⊢
          exact hwhole m (hlarge.elim le_of_lt fun h => by linarith)
      | true =>
          rw [if_pos rfl] at hlarge ⊢
          have hle : 2 ^ 52 ≤ m.toRat := hlarge.elim (fun h => by linarith) fun h => by linarith
          exact isWhole_neg_iff.mpr (hwhole m hle)
  | infinite negative => cases hq
  | nan => cases hq

theorem not_isHalfway_of_nextToHalfway {q : ℚ} (h : NextToHalfway q) : ¬ IsHalfway q := by
  rw [isHalfway_iff_add]
  rcases h with rfl | ⟨k, hk, rfl⟩
  · exact not_isWhole_of_lt (n := 0) (by norm_num) (by norm_num)
  · have hpos : (0 : ℚ) < 2 ^ k := by positivity
    have hlt : (2 : ℚ) ^ k < 2 ^ 52 := pow_lt_pow_right₀ (by norm_num) hk
    exact not_isWhole_of_lt (n := 2 ^ k) (by push_cast; linarith) (by push_cast; linarith)

/-- The check is wrong just about the values that are taken for half-integral. -/
theorem isHalfIntegral_right_iff (v : Binary64) :
    (v.isHalfIntegral = true ↔ ∃ q, v.toRat? = some q ∧ IsHalfway q) ↔
      ∀ q, v.toRat? = some q → ¬ TakenForHalfway q := by
  have hnot : ∀ q, v.toRat? = some q → TakenForHalfway q → ¬ IsHalfway q := by
    rintro q hq (hlarge | hlarge | hnext)
    · exact (isWhole_of_large hq (.inl hlarge)).not_isHalfway
    · exact (isWhole_of_large hq (.inr hlarge)).not_isHalfway
    · rw [← isHalfway_neg_iff]
      exact not_isHalfway_of_nextToHalfway hnext
  rw [isHalfIntegral_iff]
  constructor
  · intro hright q hq htaken
    obtain ⟨q', hq', hhalf⟩ := hright.mp ⟨q, hq, .inr htaken⟩
    obtain rfl := Option.some.inj (hq.symm.trans hq')
    exact hnot q hq htaken hhalf
  · intro hnone
    constructor
    · rintro ⟨q, hq, htaken⟩
      exact ⟨q, hq, htaken.resolve_right (hnone q hq)⟩
    · rintro ⟨q, hq, hhalf⟩
      exact ⟨q, hq, .inl hhalf⟩

/-- A number is taken for whole and for half-integral at once just if it is beyond `2 ^ 52`. -/
theorem isIntegral_and_isHalfIntegral_iff (v : Binary64) :
    v.isIntegral = true ∧ v.isHalfIntegral = true ↔
      ∃ q, v.toRat? = some q ∧ (2 ^ 52 < q ∨ q ≤ -2 ^ 52) := by
  rw [isIntegral_iff, isHalfIntegral_iff]
  constructor
  · rintro ⟨⟨q, hq, hwhole⟩, q', hq', htaken⟩
    obtain rfl := Option.some.inj (hq.symm.trans hq')
    refine ⟨q, hq, ?_⟩
    rcases htaken with hhalf | hlarge | hlarge | hnext
    · exact absurd hhalf hwhole.not_isHalfway
    · exact .inl hlarge
    · exact .inr hlarge
    · exact absurd (isWhole_neg_iff.mpr hwhole) (not_isWhole_of_nextToHalfway hnext)
  · rintro ⟨q, hq, hlarge⟩
    refine ⟨⟨q, hq, isWhole_of_large hq hlarge⟩, q, hq, .inr ?_⟩
    exact hlarge.imp_right .inl

end Binary64
end PieceSequencer
