import PieceSequencer.Text.Numeral

/-! # Lines of keys

The keys of a sequence on one line, the standard ones in the colours of their pieces if colours
are asked for. -/

namespace PieceSequencer

/-- A colour by its three components. -/
structure Colour where
  red : UInt8
  green : UInt8
  blue : UInt8
  deriving DecidableEq, Repr

/-- The colour of a standard piece. -/
def Colour.ofKey? : Char → Option Colour
  | 'I' => some ⟨80, 220, 220⟩
  | 'O' => some ⟨240, 220, 80⟩
  | 'T' => some ⟨200, 120, 220⟩
  | 'S' => some ⟨100, 220, 120⟩
  | 'Z' => some ⟨220, 80, 80⟩
  | 'J' => some ⟨80, 120, 220⟩
  | 'L' => some ⟨255, 165, 0⟩
  | _ => none

/-- What begins a terminal command. -/
def commandStart : List Char := ['\x1b', '[']

/-- A key in bold and in a colour, with the terminal reset behind it. -/
def Colour.paint (colour : Colour) (key : Char) : List Char :=
  commandStart ++ "38;2;".toList ++ Numeral.write colour.red.toNat ++ [';'] ++
    Numeral.write colour.green.toNat ++ [';'] ++ Numeral.write colour.blue.toNat ++ ['m'] ++
    commandStart ++ ['1', 'm', key] ++ commandStart ++ ['0', 'm'] ++ commandStart ++ ['0', 'm']

/-- One key of a line. -/
def keyChars (colored : Bool) (key : Char) : List Char :=
  match Colour.ofKey? key with
  | some colour => if colored then colour.paint key else [key]
  | none => [key]

/-- Keys on one line, with single spaces between them. -/
def keyLine (colored : Bool) (keys : List Char) : String :=
  String.ofList (((keys.map (keyChars colored)).intersperse [' ']).flatten ++ ['\n'])

end PieceSequencer
