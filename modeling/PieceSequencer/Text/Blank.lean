/-! # Blank characters

The characters that separate nothing and stand for nothing in a pattern: the 25 characters
with the white-space property. `trim` drops them from both ends of a text. -/

namespace PieceSequencer.Text

/-- The characters with the white-space property, as code points in ascending order. -/
def blankCodes : List Nat :=
  [0x9, 0xA, 0xB, 0xC, 0xD, 0x20, 0x85, 0xA0, 0x1680,
   0x2000, 0x2001, 0x2002, 0x2003, 0x2004, 0x2005, 0x2006, 0x2007, 0x2008, 0x2009, 0x200A,
   0x2028, 0x2029, 0x202F, 0x205F, 0x3000]

/-- A character that may stand anywhere in a pattern without changing it. -/
def isBlank (c : Char) : Bool := blankCodes.contains c.toNat

/-- A text without the blank characters at its two ends. -/
def trim (text : String) : String :=
  String.ofList ((text.toList.dropWhile isBlank).reverse.dropWhile isBlank).reverse

/-- A graphic ASCII character is never blank. -/
theorem isBlank_eq_false_of_graphic {c : Char} (hlow : 0x21 ≤ c.toNat) (hhigh : c.toNat ≤ 0x7E) :
    isBlank c = false := by
  simp [isBlank, blankCodes]
  omega

end PieceSequencer.Text
