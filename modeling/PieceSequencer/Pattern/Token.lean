import PieceSequencer.Text.Numeral

/-! # Tokens of the pattern language

Eight symbols, piece keys and 32-bit numbers. A pattern is a list of them. -/

namespace PieceSequencer

/-- The symbols of the pattern language, named for what they ask for. -/
inductive Symbol where
  /-- `@`: every piece of the catalogue. -/
  | every
  /-- `*`: a repeat count follows. -/
  | times
  /-- `:`: a pick count follows. -/
  | pick
  /-- `~`: the last element is repeated forever. -/
  | forever
  | openSquare
  | closeSquare
  | openRound
  | closeRound
  deriving DecidableEq, Repr

namespace Symbol

/-- The character of a symbol. -/
def char : Symbol → Char
  | .every => '@'
  | .times => '*'
  | .pick => ':'
  | .forever => '~'
  | .openSquare => '['
  | .closeSquare => ']'
  | .openRound => '('
  | .closeRound => ')'

/-- The symbol of a character. -/
def ofChar? : Char → Option Symbol
  | '@' => some .every
  | '*' => some .times
  | ':' => some .pick
  | '~' => some .forever
  | '[' => some .openSquare
  | ']' => some .closeSquare
  | '(' => some .openRound
  | ')' => some .closeRound
  | _ => none

@[simp] theorem ofChar?_char (s : Symbol) : ofChar? s.char = some s := by cases s <;> rfl

theorem char_of_ofChar? {c : Char} {s : Symbol} (h : ofChar? c = some s) : s.char = c := by
  unfold ofChar? at h
  split at h <;> first | (cases h; rfl) | cases h

/-- Each symbol has a character of its own. -/
theorem ofChar?_eq_some_iff {c : Char} {s : Symbol} : ofChar? c = some s ↔ s.char = c :=
  ⟨char_of_ofChar?, fun h => h ▸ ofChar?_char s⟩

end Symbol

/-- A token of a pattern. -/
inductive Token where
  | number (value : UInt32)
  | key (name : Char)
  | symbol (symbol : Symbol)
  deriving DecidableEq, Repr

namespace Token

/-- The characters that write a token. -/
def chars : Token → List Char
  | .number value => Numeral.write value.toNat
  | .key name => [name]
  | .symbol s => [s.char]

/-- The text of a token. -/
def text (token : Token) : String := String.ofList token.chars

end Token

end PieceSequencer
