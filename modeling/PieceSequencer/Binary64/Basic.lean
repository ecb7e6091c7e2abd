/-! # Binary64 numbers

The coordinates of a piece are numbers of the 64-bit binary floating-point format. A finite one
is a sign and a `Magnitude`, an exact dyadic fraction in the one form that the format has for
it, so two magnitudes are equal exactly when their values are. Everything is computed on exact
rational values; no hardware arithmetic is involved. -/

namespace PieceSequencer

/-- A finite non-negative number of the format, `mantissa · 2 ^ exponent`. The mantissa has 53
bits unless the exponent is already the lowest one. -/
structure Magnitude where
  mantissa : Nat
  exponent : Int
  mantissa_lt : mantissa < 1 <<< 53
  le_exponent : -1074 ≤ exponent
  exponent_le : exponent ≤ 971
  full : exponent = -1074 ∨ 1 <<< 52 ≤ mantissa
  deriving DecidableEq, Repr

namespace Magnitude

/-- Zero is the magnitude without mantissa. -/
def zero : Magnitude := ⟨0, -1074, by decide, by decide, by decide, by decide⟩

instance : Inhabited Magnitude := ⟨zero⟩

/-- The magnitude with these parts, if the format has one. -/
def ofParts? (mantissa : Nat) (exponent : Int) : Option Magnitude :=
  if h : mantissa < 1 <<< 53 ∧ -1074 ≤ exponent ∧ exponent ≤ 971 ∧
      (exponent = -1074 ∨ 1 <<< 52 ≤ mantissa) then
    some ⟨mantissa, exponent, h.1, h.2.1, h.2.2.1, h.2.2.2⟩
  else none

/-- The exact value. -/
def toRat (m : Magnitude) : Rat := (m.mantissa : Rat) * 2 ^ m.exponent

@[simp] theorem ofParts?_self (m : Magnitude) : ofParts? m.mantissa m.exponent = some m :=
  dif_pos ⟨m.mantissa_lt, m.le_exponent, m.exponent_le, m.full⟩

end Magnitude

/-- A number of the format: finite with a sign, infinite with a sign, or not a number. -/
inductive Binary64 where
  | finite (negative : Bool) (magnitude : Magnitude)
  | infinite (negative : Bool)
  | nan
  deriving DecidableEq, Repr

namespace Binary64

/-- Positive zero. -/
def zero : Binary64 := .finite false .zero

instance : Inhabited Binary64 := ⟨zero⟩

/-- The exact value of a finite number. -/
def toRat? : Binary64 → Option Rat
  | .finite negative m => some (if negative then -m.toRat else m.toRat)
  | .infinite _ => none
  | .nan => none

/-- Neither infinite nor `nan`. -/
def isFinite : Binary64 → Bool
  | .finite .. => true
  | _ => false

/-- Numerical equality: the two zeros are equal, and `nan` equals nothing, not even itself. -/
def equal : Binary64 → Binary64 → Bool
  | .finite s m, .finite t n => m = n && (s = t || m = .zero)
  | .infinite s, .infinite t => s = t
  | _, _ => false

/-- A finite whole number. -/
def isIntegral (v : Binary64) : Bool :=
  match v.toRat? with
  | some q => q.isInt
  | none => false

/-- A number equals itself numerically unless it is `nan`. -/
theorem equal_self_iff {v : Binary64} : v.equal v = true ↔ v ≠ .nan := by
  cases v <;> simp [equal]

/-- A finite number equals itself numerically. -/
theorem equal_self {v : Binary64} (h : v.isFinite = true) : v.equal v = true := by
  cases v <;> simp_all [equal, isFinite]

end Binary64

end PieceSequencer
