import PieceSequencer.Pattern.Error
import PieceSequencer.Text.Blank

/-! # From text to tokens

Blank characters are dropped first, so they neither make tokens nor separate them: `1 0` is the
number ten. What is left falls into words, single characters and maximal runs of digits, and
each word is one token. The leftmost word that is none is the fault. -/

namespace PieceSequencer

/-- A part of a text that makes up one token, with the place of its first character. -/
inductive Word where
  | single (character : Char) (position : Nat)
  | digits (run : List Char) (position : Nat)
  deriving DecidableEq, Repr

namespace Word

/-- The characters of a text that are not blank, with their places. -/
def marks (text : List Char) : List (Char × Nat) :=
  text.zipIdx.filter fun mark => !Text.isBlank mark.1

/-- One more character in front of some words. A digit joins a run that follows it. -/
def cons (mark : Char × Nat) (words : List Word) : List Word :=
  if mark.1.isDigit then
    match words with
    | .digits run _ :: words => .digits (mark.1 :: run) mark.2 :: words
    | words => .digits [mark.1] mark.2 :: words
  else .single mark.1 mark.2 :: words

/-- The words of a text. -/
def ofText (text : List Char) : List Word := (marks text).foldr cons []

/-- The token of a word over the given keys. A symbol is never a key. -/
def token (keys : List Char) : Word → Except ScanError Token
  | .single c position =>
    match Symbol.ofChar? c with
    | some s => .ok (.symbol s)
    | none =>
      if keys.contains c then .ok (.key c) else .error (.unexpectedCharacter c position)
  | .digits run position =>
    let n := Numeral.value run
    if n < UInt32.size then .ok (.number (UInt32.ofNat n))
    else .error (.numberOverflow (String.ofList run) position)

end Word

/-- The tokens of a text over the given keys, or the fault of the first word that is none. -/
def Token.scan (keys : List Char) (text : String) : Except ScanError (List Token) :=
  (Word.ofText text.toList).mapM (Word.token keys)

end PieceSequencer
