import PieceSequencer.Binary64.Rounding
import PieceSequencer.Text.Numeral

/-! # Decimals

Decimal forms of binary64 magnitudes. `Decimal.nearest?` reads one; `Magnitude.shortest` finds
the one to write: the fewest digits that read back, and of those the nearest to the exact
value. -/

namespace PieceSequencer

/-- The value `digits · 10 ^ exponent`. -/
structure Decimal where
  digits : Nat
  exponent : Int
  deriving DecidableEq, Repr

/-- Which of two equally near decimals is taken. -/
inductive Tie where
  | up
  | even
  deriving DecidableEq, Repr

namespace Decimal

/-- The exact value. -/
def toRat (d : Decimal) : Rat := (d.digits : Rat) * 10 ^ d.exponent

/-- The decimal written with the digits `whole` before and `fraction` after the point, and a power
of ten. -/
def ofParts (whole fraction : List Char) (exponent : Int) : Decimal :=
  ⟨Numeral.value (whole ++ fraction), exponent - fraction.length⟩

/-- The number of digits before the point: zero for `0.5`, negative for `0.05`. -/
def size (d : Decimal) : Int := (Numeral.write d.digits).length + d.exponent

/-- The magnitude nearest to a decimal, unless it lies beyond the largest. Decimals far outside the
range of the format are told by their size. -/
def nearest? (d : Decimal) : Option Magnitude :=
  if d.digits = 0 ∨ d.size < -330 then some .zero
  else if 310 < d.size then none
  else Magnitude.nearest? d.toRat

/-- The same value without trailing zeros among the digits. -/
def strip (d : Decimal) : Decimal :=
  if h : d.digits ≠ 0 ∧ d.digits % 10 = 0 then strip ⟨d.digits / 10, d.exponent + 1⟩ else d
termination_by d.digits
decreasing_by exact Nat.div_lt_self (by omega) (by decide)

end Decimal

namespace Magnitude

/-- The number of digits before the point of a magnitude, as for `Decimal.size`. No positive
magnitude is below `10 ^ -324`, so the whole part of its multiple by `10 ^ 324` shows them all. -/
def size (m : Magnitude) : Int :=
  (Numeral.write (m.toRat * 10 ^ (324 : Int)).floor.toNat).length - 324

/-- The two neighbours of a value among the multiples of `10 ^ grid`, the nearer one first. -/
def neighbours (tie : Tie) (q : Rat) (grid : Int) : List Decimal :=
  let scaled := q / 10 ^ grid
  let low := scaled.floor.toNat
  let excess := scaled - (low : Rat)
  if excess < 1 / 2 ∨ excess = 1 / 2 ∧ tie = .even ∧ low % 2 = 0 then
    [⟨low, grid⟩, ⟨low + 1, grid⟩]
  else [⟨low + 1, grid⟩, ⟨low, grid⟩]

/-- All digits of the exact value. -/
def exact (m : Magnitude) : Decimal :=
  if 0 ≤ m.exponent then ⟨m.mantissa <<< m.exponent.toNat, 0⟩
  else ⟨m.mantissa * Nat.pow 5 (-m.exponent).toNat, m.exponent⟩

/-- The decimal with the fewest digits that reads back, the nearest of several, and on a tie the one
that `tie` names. Seventeen digits always read back; the exact value stands behind them. -/
def shortest (tie : Tie) (m : Magnitude) : Decimal :=
  if m = .zero then ⟨0, 0⟩
  else
    let found := (List.range 17).findSome? fun (n : Nat) =>
      (neighbours tie m.toRat (m.size - (n + 1))).find? fun d => nearest? d.toRat = some m
    (found.getD m.exact).strip

end Magnitude

end PieceSequencer
