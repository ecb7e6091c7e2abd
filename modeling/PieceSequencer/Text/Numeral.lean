/-! # Decimal numerals

Natural numbers as runs of the ten ASCII digits: `write` gives the one run without leading
zeros, `value` reads any run. `read?` is the stricter reader of settings: an optional plus
sign, at least one digit, nothing else, and a value below the given bound. -/

namespace PieceSequencer.Numeral

/-- The digit for `d`, meant for `d < 10`. -/
def digit (d : Nat) : Char := Char.ofNat (48 + d)

/-- The number a digit stands for. -/
def digitValue (c : Char) : Nat := c.toNat - 48

/-- The digits of `n` without leading zeros; zero is written `0`. -/
def write (n : Nat) : List Char :=
  if n < 10 then [digit n] else write (n / 10) ++ [digit (n % 10)]

/-- The value of a run of digits; leading zeros count for nothing. -/
def value (run : List Char) : Nat := run.foldl (fun n c => 10 * n + digitValue c) 0

/-- The number that a text of digits, perhaps after a plus sign, writes below `bound`. -/
def read? (bound : Nat) (text : List Char) : Option Nat :=
  let run := match text with
    | '+' :: run => run
    | run => run
  if !run.isEmpty && run.all Char.isDigit && value run < bound then some (value run) else none

/-- The digits of `n` as text. -/
def text (n : Nat) : String := String.ofList (write n)

/-- The lower-case digits of `n` in base sixteen. -/
def writeHex (n : Nat) : List Char := Nat.toDigits 16 n

@[simp] theorem value_nil : value [] = 0 := rfl

theorem value_append_digit (run : List Char) (c : Char) :
    value (run ++ [c]) = 10 * value run + digitValue c := by
  simp [value]

theorem digitValue_digit {d : Nat} (h : d < 10) : digitValue (digit d) = d := by
  revert d
  decide

theorem isDigit_digit {d : Nat} (h : d < 10) : (digit d).isDigit = true := by
  revert d
  decide

/-- Writing a number and reading its digits gives the number back. -/
@[simp] theorem value_write (n : Nat) : value (write n) = n := by
  induction n using Nat.strongRecOn with
  | ind n ih =>
    rw [write]
    split
    · rename_i hsmall
      simp [value, digitValue_digit hsmall]
    · rw [value_append_digit, ih (n / 10) (by omega), digitValue_digit (by omega)]
      omega

theorem write_ne_nil (n : Nat) : write n ≠ [] := by
  rw [write]
  split <;> simp

/-- Only digits are written. -/
theorem isDigit_of_mem_write {n : Nat} {c : Char} (h : c ∈ write n) : c.isDigit = true := by
  induction n using Nat.strongRecOn with
  | ind n ih =>
    rw [write] at h
    split at h
    · rename_i hsmall
      simp only [List.mem_singleton] at h
      subst h
      exact isDigit_digit hsmall
    · simp only [List.mem_append, List.mem_singleton] at h
      rcases h with hmem | rfl
      · exact ih (n / 10) (by omega) hmem
      · exact isDigit_digit (by omega)

end PieceSequencer.Numeral
