import PieceSequencer.Binary64.Rounding
import PieceSequencer.Piece.Key

/-! # Pieces

What a sequence hands out: a key, a shape and the offset where the piece appears. Coordinates are
binary64 numbers, so that a stored catalogue can hold any number and be refused for it. -/

namespace PieceSequencer

/-! ### Points -/

/-- A point of the plane of a shape. -/
structure Point where
  x : Binary64
  y : Binary64
  deriving DecidableEq, Repr

namespace Point

/-- The origin of the plane. -/
def zero : Point := ⟨.zero, .zero⟩

instance : Inhabited Point := ⟨zero⟩

/-- The point with the given exact coordinates, rounded. -/
def nearest (x y : Rat) : Point := ⟨.nearest x, .nearest y⟩

/-- Numerical equality of both coordinates. -/
def equal (p q : Point) : Bool := p.x.equal q.x && p.y.equal q.y

/-- Both coordinates are whole: the centre of a cell. -/
def isGridCenter (p : Point) : Bool := p.x.isIntegral && p.y.isIntegral

/-- Both coordinates are half-integral: a corner between cells. -/
def isLatticePoint (p : Point) : Bool := p.x.isHalfIntegral && p.y.isHalfIntegral

/-- Both coordinates are finite. -/
def isFinite (p : Point) : Bool := p.x.isFinite && p.y.isFinite

end Point

/-! ### Shapes -/

/-- The most blocks that a shape holds. -/
def maxBlocks : Nat := 16

/-- The blocks of a piece, the point it turns about and, perhaps, an explicit origin. -/
structure Shape where
  blocks : List Point
  pivot : Point
  origin : Option Point
  length_blocks_le : blocks.length ≤ maxBlocks
  deriving DecidableEq, Repr

namespace Shape

/-- A shape without explicit origin; blocks beyond the sixteenth are dropped. -/
def ofBlocks (blocks : List Point) (pivot : Point) : Shape :=
  ⟨blocks.take maxBlocks, pivot, none, List.length_take_le _ _⟩

/-- The same shape with an explicit origin. -/
def withOrigin (shape : Shape) (origin : Point) : Shape := { shape with origin := some origin }

/-- The number of blocks. -/
def length (shape : Shape) : Nat := shape.blocks.length

/-- Whether the shape has no block. -/
def isEmpty (shape : Shape) : Bool := shape.blocks.isEmpty

/-- Numerical equality of two optional points. -/
def equalOrigin : Option Point → Option Point → Bool
  | none, none => true
  | some p, some q => p.equal q
  | _, _ => false

/-- Numerical equality of two lists of points. -/
def equalBlocks : List Point → List Point → Bool
  | [], [] => true
  | p :: ps, q :: qs => p.equal q && equalBlocks ps qs
  | _, _ => false

/-- Numerical equality, coordinate by coordinate. -/
def equal (a b : Shape) : Bool :=
  equalBlocks a.blocks b.blocks && a.pivot.equal b.pivot && equalOrigin a.origin b.origin

/-- Blocks within the limit are kept as they are. -/
theorem blocks_ofBlocks {blocks : List Point} (h : blocks.length ≤ maxBlocks) (pivot : Point) :
    (ofBlocks blocks pivot).blocks = blocks :=
  List.take_of_length_le h

end Shape

/-! ### Pieces -/

/-- A piece of a catalogue. -/
structure Piece where
  key : Char
  shape : Shape
  spawnOffset : Point
  deriving DecidableEq, Repr

/-- Equal keys and numerically equal coordinates. -/
def Piece.equal (a b : Piece) : Bool :=
  a.key = b.key && a.shape.equal b.shape && a.spawnOffset.equal b.spawnOffset

end PieceSequencer
