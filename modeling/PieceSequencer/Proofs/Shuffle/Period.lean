import Mathlib.Algebra.Ring.GeomSum
import Mathlib.Data.Fintype.EquivFin
import Mathlib.Data.Nat.ModEq
import Mathlib.Data.Nat.Prime.Basic
import Mathlib.Tactic.Ring
import PieceSequencer.Shuffle.Congruential

/-! # The period of the generator

The words of the generator differ from the first one by an odd multiple of a geometric sum
(`state_iterate`).  The factor leaves the remainder one modulo four, so a geometric sum of it is
divisible by a power of two just if its number of terms is (`pow_dvd_geom_sum_iff`).  Hence the
low `b` bits of the words return after `2 ^ b` words and no sooner, wherever the generator stands
(`residues_recur_iff`), and every seed leads through all words. -/

namespace PieceSequencer
namespace Congruential

open Finset (range)

/-! ### Geometric sums -/

theorem pow_mod_four {a : Nat} (ha : a % 4 = 1) (m : Nat) : a ^ m % 4 = 1 := by
  rw [Nat.pow_mod, ha, one_pow, Nat.one_mod]

theorem geom_sum_mod_two {a : Nat} (ha : a % 4 = 1) (k : Nat) :
    (∑ i ∈ range k, a ^ i) % 2 = k % 2 := by
  induction k with
  | zero => rfl
  | succ k ih =>
      have hterm := pow_mod_four ha k
      rw [Finset.sum_range_succ]
      omega

/-- The second half of a geometric sum is a multiple of the first. -/
theorem geom_sum_two_mul (a m : Nat) :
    ∑ i ∈ range (2 * m), a ^ i = (a ^ m + 1) * ∑ i ∈ range m, a ^ i := by
  rw [two_mul, Finset.sum_range_add, add_mul, one_mul, add_comm, Finset.mul_sum]
  simp only [pow_add]

/-- **A geometric sum has the factors two of its number of terms.** -/
theorem pow_dvd_geom_sum_iff {a : Nat} (ha : a % 4 = 1) (b k : Nat) :
    2 ^ b ∣ ∑ i ∈ range k, a ^ i ↔ 2 ^ b ∣ k := by
  induction b generalizing k with
  | zero => simp only [pow_zero, one_dvd]
  | succ b ih =>
      have hparity := geom_sum_mod_two ha k
      have htwo : ∀ {n : Nat}, 2 ^ (b + 1) ∣ n → n % 2 = 0 := fun h =>
        Nat.mod_eq_zero_of_dvd ((dvd_pow_self 2 b.succ_ne_zero).trans h)
      rcases Nat.even_or_odd' k with ⟨m, rfl | rfl⟩
      · -- the factor between the halves is twice an odd number
        obtain ⟨c, hc⟩ : ∃ c, a ^ m + 1 = 2 * (2 * c + 1) :=
          ⟨a ^ m / 4, by have := pow_mod_four ha m; omega⟩
        have hodd : Nat.Coprime (2 ^ b) (2 * c + 1) :=
          (Nat.coprime_two_left.mpr (odd_two_mul_add_one c)).pow_left b
        rw [geom_sum_two_mul, hc, mul_assoc, pow_succ', Nat.mul_dvd_mul_iff_left two_pos,
          Nat.mul_dvd_mul_iff_left two_pos, hodd.dvd_mul_left, ih]
      · exact iff_of_false (fun h => by have := htwo h; omega) (fun h => by have := htwo h; omega)

/-! ### Words -/

theorem multiplier_mod_four : multiplier.toNat % 4 = 1 := rfl

theorem odd_increment : Odd increment.toNat := Nat.odd_iff.mpr rfl

/-- The difference between a word and the next, as a natural number. -/
def stride (word : Nat) : Nat := (multiplier.toNat - 1) * word + increment.toNat

theorem odd_stride (word : Nat) : Odd (stride word) := by
  have heven : Even (multiplier.toNat - 1) := by
    rw [Nat.even_iff]
    have := multiplier_mod_four
    omega
  exact (heven.mul_right word).add_odd odd_increment

theorem toNat_advance (g : Congruential) : g.advance.state.toNat =
    (g.state.toNat * multiplier.toNat + increment.toNat) % 2 ^ 32 := by
  rw [advance, UInt32.toNat_add, UInt32.toNat_mul, Nat.mod_add_mod]

/-- The word after `k` more, but for multiples of `2 ^ 32`. -/
theorem state_iterate (g : Congruential) (k : Nat) :
    (advance^[k] g).state.toNat ≡
      g.state.toNat + stride g.state.toNat * ∑ i ∈ range k, multiplier.toNat ^ i
        [MOD 2 ^ 32] := by
  have hne : multiplier.toNat ≠ 0 := fun h => by
    have := multiplier_mod_four
    omega
  obtain ⟨d, hd⟩ := Nat.exists_eq_succ_of_ne_zero hne
  induction k with
  | zero => rw [Finset.sum_range_zero, mul_zero, add_zero, Function.iterate_zero, id_eq]
  | succ k ih =>
      rw [Function.iterate_succ_apply', toNat_advance, geom_sum_succ]
      generalize ∑ i ∈ range k, multiplier.toNat ^ i = sum at ih ⊢
      calc ((advance^[k] g).state.toNat * multiplier.toNat + increment.toNat) % 2 ^ 32
        _ ≡ (advance^[k] g).state.toNat * multiplier.toNat + increment.toNat [MOD 2 ^ 32] :=
            Nat.mod_modEq _ _
        _ ≡ (g.state.toNat + stride g.state.toNat * sum) * multiplier.toNat + increment.toNat
              [MOD 2 ^ 32] :=
            (ih.mul_right multiplier.toNat).add_right increment.toNat
        _ = g.state.toNat + stride g.state.toNat * (multiplier.toNat * sum + 1) := by
            rw [stride, hd, Nat.succ_sub_one, Nat.succ_eq_add_one]
            ring

/-- The low bits of the words recur after a multiple of as many words as they have values. -/
theorem iterate_modEq_iff (g : Congruential) {b : Nat} (hb : b ≤ 32) (k : Nat) :
    (advance^[k] g).state.toNat ≡ g.state.toNat [MOD 2 ^ b] ↔ 2 ^ b ∣ k := by
  have hword := (state_iterate g k).of_dvd (pow_dvd_pow 2 hb)
  rw [← pow_dvd_geom_sum_iff multiplier_mod_four b k,
    ← ((odd_stride g.state.toNat).coprime_two_left.pow_left b).dvd_mul_left,
    ← Nat.add_modEq_left_iff]
  exact ⟨hword.symm.trans, hword.trans⟩

theorem iterate_add_modEq_iff (g : Congruential) {b : Nat} (hb : b ≤ 32) (start k : Nat) :
    (advance^[start + k] g).state.toNat ≡ (advance^[start] g).state.toNat [MOD 2 ^ b] ↔
      2 ^ b ∣ k := by
  rw [add_comm, Function.iterate_add_apply]
  exact iterate_modEq_iff _ hb k

/-! ### All words -/

theorem toNat_modEq_iff {v w : UInt32} : v.toNat ≡ w.toNat [MOD 2 ^ 32] ↔ v = w := by
  rw [Nat.ModEq, Nat.mod_eq_of_lt v.toNat_lt, Nat.mod_eq_of_lt w.toNat_lt, UInt32.toNat_inj]

/-- A generator comes by one word twice just if whole rounds of `2 ^ 32` words lie between. -/
theorem iterate_state_eq_iff (g : Congruential) (j k : Nat) :
    (advance^[j] g).state = (advance^[k] g).state ↔ j ≡ k [MOD 2 ^ 32] := by
  wlog hle : j ≤ k generalizing j k
  · rw [eq_comm, Nat.ModEq.comm]
    exact this k j (Nat.le_of_not_le hle)
  obtain ⟨d, rfl⟩ := Nat.exists_eq_add_of_le hle
  rw [← toNat_modEq_iff, Nat.ModEq.comm, iterate_add_modEq_iff g le_rfl,
    Nat.left_modEq_add_iff]

/-- From every generator each word is reached once within `2 ^ 32` words. -/
theorem existsUnique_iterate (g : Congruential) (word : UInt32) :
    ∃! k, k < 2 ^ 32 ∧ (advance^[k] g).state = word := by
  let word? : Fin (2 ^ 32) → Fin (2 ^ 32) := fun k => (advance^[k] g).state.toFin
  have hunique : ∀ {j k}, j < 2 ^ 32 → k < 2 ^ 32 →
      (advance^[j] g).state = (advance^[k] g).state → j = k := fun hj hk h =>
    ((iterate_state_eq_iff g _ _).mp h).eq_of_lt_of_lt hj hk
  have hinjective : Function.Injective word? := fun j k h =>
    Fin.ext (hunique j.isLt k.isLt (UInt32.toFin_inj.mp h))
  obtain ⟨k, hk⟩ := Finite.surjective_of_injective hinjective word.toFin
  have hword : (advance^[k] g).state = word := UInt32.toFin_inj.mp hk
  exact ⟨k, ⟨k.isLt, hword⟩, fun j hj => hunique hj.1 k.isLt (hj.2.trans hword.symm)⟩

/-! ### Words below a bound -/

/-- What call number `i` gives in a row of calls for words below `bound`. -/
def nthBelow? (g : Congruential) (bound : UInt32) (i : Nat) : Option UInt32 :=
  (((fun g => (g.below? bound).2)^[i] g).below? bound).1

theorem nthBelow?_eq (g : Congruential) {bound : UInt32} (hbound : bound ≠ 0) (i : Nat) :
    g.nthBelow? bound i = some ((advance^[i + 1] g).state % bound) := by
  rw [nthBelow?, below?_of_ne_zero _ hbound, Function.iterate_succ_apply']
  rfl

theorem toNat_pow {b : Nat} (hb : b < 32) : (UInt32.ofNat (2 ^ b)).toNat = 2 ^ b :=
  UInt32.toNat_ofNat_of_lt' (Nat.pow_lt_pow_right one_lt_two hb)

theorem nthBelow?_pow_eq_iff (g : Congruential) {b : Nat} (hb : b < 32) (i j : Nat) :
    g.nthBelow? (.ofNat (2 ^ b)) i = g.nthBelow? (.ofNat (2 ^ b)) j ↔
      (advance^[i + 1] g).state.toNat ≡ (advance^[j + 1] g).state.toNat [MOD 2 ^ b] := by
  have hpos : UInt32.ofNat (2 ^ b) ≠ 0 := by
    intro h
    have hzero := congrArg UInt32.toNat h
    rw [toNat_pow hb] at hzero
    exact (Nat.two_pow_pos b).ne' hzero
  rw [nthBelow?_eq g hpos, nthBelow?_eq g hpos, Option.some.injEq, ← UInt32.toNat_inj,
    UInt32.toNat_mod, UInt32.toNat_mod, toNat_pow hb]
  rfl

/-- **No seed degenerates.**  Wherever a seed has led, the low `b` bits of the words are the same
again after `k` more words just if `2 ^ b` divides `k`; each seed leads through every word once
before the words return; and words below `2 ^ b` recur with the period `2 ^ b` and no shorter
one. -/
theorem residues_recur_iff (seed : UInt32) :
    (∀ b, 1 ≤ b → b ≤ 32 → ∀ start k,
      (advance^[start + k] (ofSeed seed)).state.toNat % 2 ^ b =
        (advance^[start] (ofSeed seed)).state.toNat % 2 ^ b ↔ 2 ^ b ∣ k) ∧
    (∀ word, ∃! k, k < 2 ^ 32 ∧ (advance^[k] (ofSeed seed)).state = word) ∧
    (∀ b, 1 ≤ b → b < 32 → ∀ start k,
      (ofSeed seed).nthBelow? (.ofNat (2 ^ b)) (start + k) =
        (ofSeed seed).nthBelow? (.ofNat (2 ^ b)) start ↔ 2 ^ b ∣ k) := by
  refine ⟨fun b _ hb start k => ?_, existsUnique_iterate _, fun b _ hb start k => ?_⟩
  · exact iterate_add_modEq_iff (ofSeed seed) hb start k
  · rw [nthBelow?_pow_eq_iff _ hb, add_right_comm]
    exact iterate_add_modEq_iff (ofSeed seed) hb.le (start + 1) k

theorem residues_recur_seed_zero :
    (1 ≤ 31 ∧ 31 < 32) ∧
    (advance^[5 + 2 ^ 31] (ofSeed 0)).state.toNat % 2 ^ 31 =
      (advance^[5] (ofSeed 0)).state.toNat % 2 ^ 31 ∧
    ¬ (advance^[5 + 2 ^ 31] (ofSeed 0)).state.toNat % 2 ^ 32 =
      (advance^[5] (ofSeed 0)).state.toNat % 2 ^ 32 ∧
    (ofSeed 0).nthBelow? (.ofNat (2 ^ 31)) (5 + 2 ^ 31) =
      (ofSeed 0).nthBelow? (.ofNat (2 ^ 31)) 5 := by
  have hone : 1 ≤ 31 := by decide
  have hlt : 31 < 32 := by decide
  have hnot : ¬ 2 ^ 32 ∣ 2 ^ 31 := by decide
  obtain ⟨hresidues, -, hbelow⟩ := residues_recur_iff 0
  exact ⟨⟨hone, hlt⟩, (hresidues 31 hone hlt.le 5 _).mpr (dvd_refl _),
    fun h => hnot ((hresidues 32 (by decide) (Nat.le_refl 32) 5 _).mp h),
    (hbelow 31 hone hlt 5 _).mpr (dvd_refl _)⟩

end Congruential
end PieceSequencer
