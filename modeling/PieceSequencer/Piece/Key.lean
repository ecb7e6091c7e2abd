/-! # Piece keys

A piece is named by one visible ASCII character. The digits and the eight symbols of the pattern
language are reserved. -/

namespace PieceSequencer

/-- The symbols of the pattern language. -/
def specialSymbols : List Char := ['@', '*', ':', '~', '[', ']', '(', ')']

/-- Whether a character is one of the eight symbols. -/
def isSpecialSymbol (c : Char) : Bool := specialSymbols.contains c

/-- Whether a character shows in ASCII: from `!` to `~`. -/
def isGraphic (c : Char) : Bool := 0x21 ≤ c.toNat && c.toNat ≤ 0x7E

/-- Whether a character may name a piece. -/
def isAllowedKey (c : Char) : Bool := isGraphic c && !c.isDigit && !isSpecialSymbol c

end PieceSequencer
