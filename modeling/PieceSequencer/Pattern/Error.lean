import PieceSequencer.Pattern.Token
import PieceSequencer.Text.Quoted

/-! # Faults of a pattern

A pattern is refused at a character that is no part of any token, or at a token that cannot stand
where it stands. Each fault knows its place. -/

namespace PieceSequencer

/-- Why a text is no list of tokens. Positions count the characters of the text as written. -/
inductive ScanError where
  | unexpectedCharacter (character : Char) (position : Nat)
  | numberOverflow (literal : String) (position : Nat)
  deriving DecidableEq, Repr

/-- What could have stood where a token is refused. -/
inductive Expected where
  | element
  | closeRound
  | pickOrCloseSquare
  | closeSquare
  | number
  | elementForeverOrEnd
  | patternEnd
  deriving DecidableEq, Repr

/-- The two counts of the pattern language. -/
inductive Count where
  | repeats
  | picks
  deriving DecidableEq, Repr

/-- Why a list of tokens is no pattern. Positions count tokens. -/
inductive ParseError where
  | unexpected (position : Nat) (expected : Expected) (found : Option Token)
  | zeroCount (position : Nat) (count : Count)
  | pickTooLarge (position : Nat) (picks : UInt32) (children : Nat)
  deriving DecidableEq, Repr

/-- Why a text is no pattern. -/
inductive PatternError where
  | scan (error : ScanError)
  | parse (error : ParseError)
  deriving DecidableEq, Repr

/-! ### Messages -/

def ScanError.message : ScanError → String
  | .unexpectedCharacter character position =>
    s!"Bag-Pattern lexing failed at index {position} ({Text.quoteChar character})"
  | .numberOverflow literal position =>
    s!"Number literal '{literal}' at index {position} does not fit in 32 bits"

def Expected.text : Expected → String
  | .element => "an element"
  | .closeRound => "')'"
  | .pickOrCloseSquare => "':' or ']'"
  | .closeSquare => "']'"
  | .number => "NUMBER"
  | .elementForeverOrEnd => "an element, '~' or end of pattern"
  | .patternEnd => "end of pattern"

def Count.text : Count → String
  | .repeats => "repeat count"
  | .picks => "pick count"

/-- The next token, or the end of the pattern, as messages show it. -/
def Token.describe : Option Token → String
  | some token => "'" ++ token.text ++ "'"
  | none => "end of pattern"

def ParseError.message : ParseError → String
  | .unexpected position expected found =>
    s!"At token {position}: expected {expected.text}, but the next token was " ++
      Token.describe found
  | .zeroCount position count => s!"At token {position}: {count.text} must be at least 1"
  | .pickTooLarge position picks children =>
    s!"At token {position}: pick count {picks} exceeds the {children} element(s) " ++
      "of the random group"

def PatternError.message : PatternError → String
  | .scan error => error.message
  | .parse error => error.message

/-- The place that a refused list of tokens is refused at. -/
def ParseError.position : ParseError → Nat
  | .unexpected position _ _ => position
  | .zeroCount position _ => position
  | .pickTooLarge position _ _ => position

end PieceSequencer
