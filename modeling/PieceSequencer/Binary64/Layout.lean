import PieceSequencer.Binary64.Decimal

/-! # Layout of decimals

How the digits of a number become text. `Layout.plain` is the form of messages, never with an
exponent; `Layout.document` is the form of stored catalogues. -/

namespace PieceSequencer

/-- The decisions of a number format. -/
structure Layout where
  /-- Which of two equally near decimals is written. -/
  tie : Tie
  /-- Whether a number with its leading digit at this power of ten is written without exponent. -/
  isPositional : Int → Bool
  /-- Whether a whole number without exponent ends in `.0`. -/
  pointZero : Bool

namespace Layout

/-- Messages write every digit in its place. -/
def plain : Layout where
  tie := .up
  isPositional := fun _ => true
  pointZero := false

/-- Stored numbers keep their digits in place between `10 ^ -5` and `10 ^ 16`. -/
def document : Layout where
  tie := .even
  isPositional := fun lead => -5 ≤ lead && lead ≤ 15
  pointZero := true

/-- Digits in their places, with a point where it belongs. -/
def positional (layout : Layout) (d : Decimal) : List Char :=
  let run := Numeral.write d.digits
  if 0 ≤ d.exponent then
    run ++ List.replicate d.exponent.toNat '0' ++ (if layout.pointZero then ['.', '0'] else [])
  else if 0 < d.size then
    run.take d.size.toNat ++ '.' :: run.drop d.size.toNat
  else
    '0' :: '.' :: List.replicate (-d.size).toNat '0' ++ run

/-- One digit before the point and a signed power of ten. -/
def scientific (d : Decimal) : List Char :=
  let run := Numeral.write d.digits
  let lead := d.size - 1
  run.take 1 ++ (if run.length = 1 then [] else '.' :: run.drop 1) ++
    'e' :: (if lead < 0 then '-' else '+') :: Numeral.write lead.natAbs

/-- The text of a decimal. -/
def decimal (layout : Layout) (d : Decimal) : List Char :=
  if layout.isPositional (d.size - 1) then layout.positional d else scientific d

/-- The text of a finite number. -/
def finite (layout : Layout) (negative : Bool) (m : Magnitude) : List Char :=
  (if negative then ['-'] else []) ++ layout.decimal (m.shortest layout.tie)

end Layout

/-- The text of a number in messages. -/
def Binary64.text : Binary64 → String
  | .finite negative m => String.ofList (Layout.plain.finite negative m)
  | .infinite false => "inf"
  | .infinite true => "-inf"
  | .nan => "NaN"

end PieceSequencer
