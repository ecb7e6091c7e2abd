import PieceSequencer.Text.Numeral
import PieceSequencer.Text.Printable

/-! # Quoted text

Characters and texts as they appear inside messages: between quotes, with the quote in use,
the backslash and every character that does not show by itself escaped. -/

namespace PieceSequencer.Text

/-- One character inside quotes of the kind `quote`. -/
def escape (quote c : Char) : List Char :=
  if c = Char.ofNat 0 then ['\\', '0']
  else if c = '\t' then ['\\', 't']
  else if c = '\r' then ['\\', 'r']
  else if c = '\n' then ['\\', 'n']
  else if c = '\\' then ['\\', '\\']
  else if c = quote then ['\\', c]
  else if isPrintable c then [c]
  else ['\\', 'u', '\x7b'] ++ Numeral.writeHex c.toNat ++ ['\x7d']

/-- A character between single quotes. -/
def quoteChar (c : Char) : String := String.ofList ('\'' :: escape '\'' c ++ ['\''])

/-- A text between double quotes. -/
def quote (text : String) : String :=
  String.ofList ('"' :: text.toList.flatMap (escape '"') ++ ['"'])

end PieceSequencer.Text
