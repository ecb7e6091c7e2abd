import PieceSequencer.Piece.Basic

/-! # Catalogues

The pieces that a pattern is written over. Their order matters: it is the order in which `@`
stands for them. A key names the first piece that has it. -/

namespace PieceSequencer

/-- A list of pieces. -/
structure Catalogue where
  pieces : List Piece
  deriving DecidableEq, Repr

namespace Catalogue

/-- The keys of the pieces in order. -/
def keys (c : Catalogue) : List Char := c.pieces.map Piece.key

/-- The number of pieces. -/
def length (c : Catalogue) : Nat := c.pieces.length

/-- Whether there is no piece. -/
def isEmpty (c : Catalogue) : Bool := c.pieces.isEmpty

/-- The first piece with this key. -/
def find? (c : Catalogue) (key : Char) : Option Piece := c.pieces.find? (·.key = key)

/-- The place of the first piece with this key. -/
def position? (c : Catalogue) (key : Char) : Option Nat := c.pieces.findIdx? (·.key = key)

/-- The piece at this place. -/
def piece? (c : Catalogue) (index : Nat) : Option Piece := c.pieces[index]?

/-- Numerical equality of two lists of pieces. -/
def equalPieces : List Piece → List Piece → Bool
  | [], [] => true
  | a :: as, b :: bs => a.equal b && equalPieces as bs
  | _, _ => false

/-- The same pieces in the same order, with numerically equal coordinates. -/
def equal (a b : Catalogue) : Bool := equalPieces a.pieces b.pieces

@[simp] theorem length_keys (c : Catalogue) : c.keys.length = c.length := by
  simp [keys, length]

/-- The place of a key lies inside the catalogue. -/
theorem position?_lt {c : Catalogue} {key : Char} {index : Nat}
    (h : c.position? key = some index) : index < c.length := by
  obtain ⟨hinside, -, -⟩ := List.findIdx?_eq_some_iff_getElem.mp h
  exact hinside

/-- The piece at the place of a key has that key. -/
theorem key_of_position? {c : Catalogue} {key : Char} {index : Nat}
    (h : c.position? key = some index) : (c.piece? index).map Piece.key = some key := by
  obtain ⟨hinside, hsame, -⟩ := List.findIdx?_eq_some_iff_getElem.mp h
  simp only [decide_eq_true_eq] at hsame
  simp [piece?, hinside, hsame]

/-- The piece at the place of a key is the first one with that key. -/
theorem piece?_of_position? {c : Catalogue} {key : Char} {index : Nat}
    (h : c.position? key = some index) :
    ∃ piece, c.piece? index = some piece ∧ c.find? key = some piece := by
  obtain ⟨hinside, hsame, hfirst⟩ := List.findIdx?_eq_some_iff_getElem.mp h
  refine ⟨c.pieces[index], List.getElem?_eq_getElem hinside, ?_⟩
  exact List.find?_eq_some_iff_getElem.mpr
    ⟨hsame, index, hinside, rfl, fun j hj => by simpa using hfirst j hj⟩

end Catalogue

end PieceSequencer
