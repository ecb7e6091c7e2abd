import PieceSequencer.Binary64.Basic

/-! # Rounding to the nearest binary64 number

`Binary64.nearest` sends an exact value to the nearest number of the format, to the one with
the even mantissa when two are equally near, and to infinity beyond the largest. `minusHalf` is
the subtraction that the format performs: the exact difference, rounded. -/

namespace PieceSequencer

/-- The whole number nearest to a non-negative value, the even one of two equally near. -/
def roundHalfEven (q : Rat) : Nat :=
  let low := q.floor.toNat
  let excess := q - (low : Rat)
  if excess < 1 / 2 ∨ excess = 1 / 2 ∧ low % 2 = 0 then low else low + 1

namespace Magnitude

/-- The exponent of the unit that a non-negative value is rounded to: the least one of the format
for which the value stays below `2 ^ 53` units. The binary logarithms of numerator and
denominator give it up to one. -/
def unitExponent (q : Rat) : Int :=
  if q = 0 then -1074
  else
    let guess := max (-1074) ((q.num.natAbs.log2 : Int) - (q.den.log2 : Int) - 53)
    if q < 2 ^ (guess + 53) then guess else guess + 1

/-- The magnitude nearest to a non-negative value, unless the value rounds beyond the largest. A
mantissa that rounds up to `2 ^ 53` is the smallest one of the next exponent. -/
def nearest? (q : Rat) : Option Magnitude :=
  let exponent := unitExponent q
  let mantissa := roundHalfEven (q / 2 ^ exponent)
  if mantissa = 1 <<< 53 then ofParts? (1 <<< 52) (exponent + 1) else ofParts? mantissa exponent

end Magnitude

namespace Binary64

/-- The number with this sign and the magnitude nearest to the given non-negative value. -/
def ofSigned (negative : Bool) (q : Rat) : Binary64 :=
  match Magnitude.nearest? q with
  | some m => .finite negative m
  | none => .infinite negative

/-- The number nearest to an exact value. -/
def nearest (q : Rat) : Binary64 := if q < 0 then ofSigned true (-q) else ofSigned false q

/-- The difference of a number and one half, rounded. -/
def minusHalf (v : Binary64) : Binary64 :=
  match v.toRat? with
  | some q => nearest (q - 1 / 2)
  | none => v

/-- A number whose rounded difference from one half is whole. -/
def isHalfIntegral (v : Binary64) : Bool := v.minusHalf.isIntegral

end Binary64

end PieceSequencer
