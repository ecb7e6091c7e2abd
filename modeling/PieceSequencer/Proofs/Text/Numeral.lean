import Mathlib.Data.List.Induction
import Mathlib.Tactic.Ring
import PieceSequencer.Text.Numeral

/-! # The length of a numeral

A numeral has as many digits as its number needs: `10 ^ length` lies above the number and less than
ten times above it, and a number other than zero does not begin with a zero.  Runs of digits are
put together as their values are. -/

namespace PieceSequencer.Numeral

theorem value_append (left right : List Char) :
    value (left ++ right) = value left * 10 ^ right.length + value right := by
  induction right using List.reverseRecOn with
  | nil => simp
  | append_singleton right c ih =>
      rw [← List.append_assoc, value_append_digit, value_append_digit, ih, List.length_append,
        List.length_singleton]
      ring

theorem value_replicate_zero (n : Nat) : value (List.replicate n '0') = 0 := by
  induction n with
  | zero => rfl
  | succ n ih => rw [List.replicate_succ', value_append_digit, ih]; rfl

theorem lt_pow_length_write (n : Nat) : n < 10 ^ (write n).length := by
  induction n using Nat.strongRecOn with
  | ind n ih =>
      rw [write]
      split
      · simpa
      · have hrest := ih (n / 10) (by omega)
        rw [List.length_append, List.length_singleton, Nat.pow_succ]
        omega

theorem pow_length_write_le {n : Nat} (h : n ≠ 0) : 10 ^ (write n).length ≤ 10 * n := by
  induction n using Nat.strongRecOn with
  | ind n ih =>
      rw [write]
      split
      · simp only [List.length_singleton]
        omega
      · have hrest := ih (n / 10) (by omega) (by omega)
        rw [List.length_append, List.length_singleton, Nat.pow_succ]
        omega

theorem digit_ne_zero {d : Nat} (hlt : d < 10) (h : d ≠ 0) : digit d ≠ '0' := by
  revert d
  decide

theorem write_zero : write 0 = ['0'] := by
  rw [write]
  rfl

/-- A number other than zero does not begin with a zero. -/
theorem write_eq_cons {n : Nat} (h : n ≠ 0) : ∃ c run, write n = c :: run ∧ c ≠ '0' := by
  induction n using Nat.strongRecOn with
  | ind n ih =>
      rw [write]
      split
      · exact ⟨_, _, rfl, digit_ne_zero ‹_› h⟩
      · obtain ⟨c, run, hrun, hc⟩ := ih (n / 10) (by omega) (by omega)
        exact ⟨c, run ++ [digit (n % 10)], by rw [hrun]; rfl, hc⟩

end PieceSequencer.Numeral
