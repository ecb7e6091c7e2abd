import PieceSequencer.Catalogue.Basic

/-! # The standard catalogue

The seven tetrominoes and the pattern that deals them in shuffled bags. Coordinates grow to the
right and upwards; every piece but `O` appears at column 3. -/

namespace PieceSequencer

/-- The row where the standard pieces appear. -/
def spawnRow : Nat := 20

/-- Shuffled bags of all pieces, forever. -/
def standardPattern : String := "[@]~"

/-- A piece that appears at column `column` of the spawn row. -/
def standardPiece (key : Char) (blocks : List Point) (pivot : Point) (column : Rat) : Piece :=
  ⟨key, .ofBlocks blocks pivot, .nearest column spawnRow⟩

/-- The seven standard pieces. -/
def Catalogue.standard : Catalogue where
  pieces :=
    [standardPiece 'T' [.nearest 0 0, .nearest 1 0, .nearest 2 0, .nearest 1 1] (.nearest 1 0) 3,
     standardPiece 'I' [.nearest 0 0, .nearest 1 0, .nearest 2 0, .nearest 3 0]
      (.nearest (3 / 2) (-1 / 2)) 3,
     standardPiece 'O' [.nearest 0 0, .nearest 1 0, .nearest 0 1, .nearest 1 1]
      (.nearest (1 / 2) (1 / 2)) 4,
     standardPiece 'L' [.nearest 0 0, .nearest 1 0, .nearest 2 0, .nearest 2 1] (.nearest 1 0) 3,
     standardPiece 'J' [.nearest 0 0, .nearest 1 0, .nearest 2 0, .nearest 0 1] (.nearest 1 0) 3,
     standardPiece 'S' [.nearest 0 0, .nearest 1 0, .nearest 1 1, .nearest 2 1] (.nearest 1 0) 3,
     standardPiece 'Z' [.nearest 2 0, .nearest 1 0, .nearest 1 1, .nearest 0 1] (.nearest 1 0) 3]

end PieceSequencer
