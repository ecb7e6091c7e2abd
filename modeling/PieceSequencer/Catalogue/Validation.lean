import PieceSequencer.Binary64.Layout
import PieceSequencer.Catalogue.Basic
import PieceSequencer.Text.Quoted

/-! # Validation

What a catalogue has to satisfy before a sequence runs on it: there is a piece, keys are allowed
and distinct, spawn offsets, blocks and origins are whole, and pivots are whole or half-integral
in both coordinates. `Catalogue.validate` names the first rule that the first offending piece
breaks. -/

namespace PieceSequencer

/-- Why a catalogue is refused. -/
inductive ValidationError where
  | emptyCatalogue
  | invalidKey (key : Char)
  | duplicateKey (key : Char)
  | fractionalSpawnOffset (key : Char) (offset : Point)
  | offGridBlock (key : Char) (index : Nat) (block : Point)
  | invalidPivot (key : Char) (pivot : Point)
  | invalidOrigin (key : Char) (origin : Point)
  deriving DecidableEq, Repr

/-- A point as messages show it. -/
def Point.text (p : Point) : String := "(" ++ p.x.text ++ ", " ++ p.y.text ++ ")"

/-- The message of a refusal. -/
def ValidationError.message : ValidationError → String
  | .emptyCatalogue => "Piece catalogue is empty"
  | .invalidKey key =>
    s!"Invalid piece key {Text.quoteChar key}: must be visible ASCII, " ++
      "not a digit or one of @*:~[]()"
  | .duplicateKey key => s!"Duplicate piece key {Text.quoteChar key}"
  | .fractionalSpawnOffset key offset =>
    s!"Invalid spawnOffset of pieces[{key}]: {offset.text}. Both must be integers."
  | .offGridBlock key index block =>
    s!"Invalid coordinate of pieces[{key}].blocks[{index}]: {block.text}. " ++
      "It must be at the grid centers like (0, 0)."
  | .invalidPivot key pivot =>
    s!"Invalid rotationPivot of pieces[{key}]: {pivot.text}. " ++
      "It must be at the grid centers like (0, 0) or on lattice points like (0.5, 0.5)."
  | .invalidOrigin key origin =>
    s!"Invalid origin of pieces[{key}]: {origin.text}. " ++
      "It must be at the grid centers like (0, 0)."

namespace Catalogue

/-- The blocks of a shape from index `index` on. -/
def checkBlocks (key : Char) : Nat → List Point → Except ValidationError Unit
  | _, [] => .ok ()
  | index, block :: blocks =>
    if block.isGridCenter then checkBlocks key (index + 1) blocks
    else .error (.offGridBlock key index block)

/-- The origin of a shape, if it has one of its own. -/
def checkOrigin (key : Char) : Option Point → Except ValidationError Unit
  | none => .ok ()
  | some origin => if origin.isGridCenter then .ok () else .error (.invalidOrigin key origin)

/-- One piece behind pieces with the keys `seen`. -/
def checkPiece (seen : List Char) (piece : Piece) : Except ValidationError Unit := do
  if !isAllowedKey piece.key then throw (.invalidKey piece.key)
  if seen.contains piece.key then throw (.duplicateKey piece.key)
  if !piece.spawnOffset.isGridCenter then
    throw (.fractionalSpawnOffset piece.key piece.spawnOffset)
  checkBlocks piece.key 0 piece.shape.blocks
  if !piece.shape.pivot.isGridCenter && !piece.shape.pivot.isLatticePoint then
    throw (.invalidPivot piece.key piece.shape.pivot)
  checkOrigin piece.key piece.shape.origin

/-- The pieces behind pieces with the keys `seen`. -/
def checkPieces : List Char → List Piece → Except ValidationError Unit
  | _, [] => .ok ()
  | seen, piece :: pieces => do
    checkPiece seen piece
    checkPieces (seen ++ [piece.key]) pieces

/-- Accepts a catalogue or tells what is wrong with it first. -/
def validate (c : Catalogue) : Except ValidationError Unit :=
  if c.pieces.isEmpty then .error .emptyCatalogue else checkPieces [] c.pieces

end Catalogue

end PieceSequencer
