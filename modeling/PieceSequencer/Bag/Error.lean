import PieceSequencer.Catalogue.Validation
import PieceSequencer.Pattern.Error

/-! # Faults of a sequence

Building a sequence fails on a bad catalogue or a bad pattern. A running one ends, or it stops at
a fault: the shuffle did not rearrange what it was given, or the arena does not belong to the
pattern. -/

namespace PieceSequencer

/-- What a running sequence relies on and did not find. -/
inductive Fault where
  | keyOutsideCatalogue
  | positionOutsideChildren
  | topNotPiece
  | pieceBelowTop
  | pieceOutsideCatalogue
  deriving DecidableEq, Repr

/-- Why a sequence gives no piece. -/
inductive BagError where
  | exhausted
  | violated (fault : Fault)
  deriving DecidableEq, Repr

/-- Why there is no sequence. -/
inductive BuildError where
  | pattern (error : PatternError)
  | validation (error : ValidationError)
  | violated (fault : Fault)
  deriving DecidableEq, Repr

/-! ### Messages -/

def Fault.message : Fault → String
  | .keyOutsideCatalogue => "pattern references a key outside the catalogue"
  | .positionOutsideChildren => "frame position outside its children"
  | .topNotPiece => "top frame is not a piece"
  | .pieceBelowTop => "piece frame below the top of the stack"
  | .pieceOutsideCatalogue => "buffered index outside the catalogue"

def BagError.message : BagError → String
  | .exhausted => "Bag-Pattern sequence is exhausted"
  | .violated fault => s!"Bag traversal invariant violated: {fault.message}"

def BuildError.message : BuildError → String
  | .pattern error => error.message
  | .validation error => error.message
  | .violated fault => (BagError.violated fault).message

end PieceSequencer
