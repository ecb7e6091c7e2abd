import PieceSequencer.Json.Codec

/-! # Reports

A window of a sequence with what produced it, on one line. -/

namespace PieceSequencer

/-- The first pieces of a pattern under a seed. -/
structure Report where
  pattern : String
  seed : UInt32
  /-- The number of pieces of one pass, if the pattern ends and that number is fixed. -/
  length : Option Nat
  pieces : List String
  /-- No piece follows the listed ones. -/
  exhausted : Bool
  deriving DecidableEq, Repr

namespace Report

def toJson (report : Report) : Json :=
  .object
    [("pattern", .text report.pattern),
     ("seed", .natural report.seed.toNat),
     ("length", report.length.elim .null .natural),
     ("pieces", .array (report.pieces.map .text)),
     ("exhausted", .boolean report.exhausted)]

/-- The text of a report. -/
def text (report : Report) (codec : Json.Codec := Json.codec) : String :=
  codec.compact report.toJson ++ "\n"

end Report

end PieceSequencer
