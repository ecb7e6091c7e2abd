import PieceSequencer.Pattern.Basic
import PieceSequencer.Pattern.Scanner

/-! # From tokens to patterns

The tokens of a pattern are read once from left to right. What has been read is a `Reading`: the
brackets still open, each with the nodes before it, the nodes of the innermost row, and where
in that row the reading stands. Each token either extends the reading or is refused, so a
refusal always stands at the first token that cannot follow.

A pattern is a row of elements, perhaps with `~` behind it. An element is a piece, a bracketed
row with at least one node, or `@`, which stands for one node for each key; a repeat count
behind it goes to each of its nodes. -/

namespace PieceSequencer

/-- The two kinds of brackets. -/
inductive Bracket where
  | round
  | square
  deriving DecidableEq, Repr

/-- An open bracket, with the nodes before it in its own row. -/
structure Opening where
  bracket : Bracket
  before : Array Node
  deriving Repr

/-- Where in a row a reading stands. -/
inductive Stage where
  /-- Before an element; nothing behind which a repeat count could stand. -/
  | fresh
  /-- Behind an element with these nodes; a repeat count may follow. -/
  | element (nodes : List Node)
  /-- Behind `*`, which repeats these nodes. -/
  | repeating (nodes : List Node)
  /-- Behind `:`. -/
  | picking
  /-- Behind a pick count. -/
  | picked (picks : UInt32)
  /-- Behind `~`. -/
  | closed
  deriving Repr

/-- What has been read of a pattern. -/
structure Reading where
  openings : List Opening
  row : Array Node
  stage : Stage
  deriving Repr

namespace Reading

/-- Nothing has been read. -/
def start : Reading := ⟨[], #[], .fresh⟩

/-- What could close the innermost row, or continue it. -/
def expectedClose : List Opening → Expected
  | [] => .elementForeverOrEnd
  | ⟨.round, _⟩ :: _ => .closeRound
  | ⟨.square, _⟩ :: _ => .pickOrCloseSquare

/-- A token that ends the complete elements `row`. A row has to hold a node before it ends. -/
def endRow (position : Nat) (openings : List Opening) (row : Array Node) (token : Token) :
    Except ParseError Reading :=
  if row.isEmpty then .error (.unexpected position .element (some token))
  else
    match token, openings with
    | .symbol .forever, [] => .ok ⟨[], row, .closed⟩
    | .symbol .closeRound, ⟨.round, before⟩ :: outer =>
      .ok ⟨outer, before, .element [.group row.toList 1]⟩
    | .symbol .closeSquare, ⟨.square, before⟩ :: outer =>
      .ok ⟨outer, before, .element [.shuffled row.toList]⟩
    | .symbol .pick, ⟨.square, before⟩ :: outer =>
      .ok ⟨⟨.square, before⟩ :: outer, row, .picking⟩
    | token, openings => .error (.unexpected position (expectedClose openings) (some token))

/-- A token behind the complete elements `row`: it begins another element or ends the row. -/
def continueRow (keys : List Char) (position : Nat) (openings : List Opening) (row : Array Node)
    (token : Token) : Except ParseError Reading :=
  match token with
  | .key k => .ok ⟨openings, row, .element [.single k]⟩
  | .symbol .every => .ok ⟨openings, row, .element (keys.map Node.single)⟩
  | .symbol .openRound => .ok ⟨⟨.round, row⟩ :: openings, #[], .fresh⟩
  | .symbol .openSquare => .ok ⟨⟨.square, row⟩ :: openings, #[], .fresh⟩
  | .symbol .times | .symbol .pick | .symbol .forever | .symbol .closeRound
  | .symbol .closeSquare | .number _ => endRow position openings row token

/-- The token of a count, which has to be a number and at least one. -/
def readCount (position : Nat) (count : Count) : Token → Except ParseError UInt32
  | .number n => if n = 0 then .error (.zeroCount position count) else .ok n
  | token => .error (.unexpected position .number (some token))

/-- One more token, which stands at `position`. -/
def read (keys : List Char) (position : Nat) (r : Reading) (token : Token) :
    Except ParseError Reading :=
  match r with
  | ⟨openings, row, .fresh⟩ => continueRow keys position openings row token
  | ⟨openings, row, .element nodes⟩ =>
    if token = .symbol .times then .ok ⟨openings, row, .repeating nodes⟩
    else continueRow keys position openings (row ++ nodes) token
  | ⟨openings, row, .repeating nodes⟩ => do
    let n ← readCount position .repeats token
    return ⟨openings, row ++ nodes.map (Node.withRepeats n), .fresh⟩
  | ⟨openings, row, .picking⟩ => do
    let n ← readCount position .picks token
    if row.size < n.toNat then throw (.pickTooLarge position n row.size)
    return ⟨openings, row, .picked n⟩
  | ⟨openings, row, .picked n⟩ =>
    match token, openings with
    | .symbol .closeSquare, ⟨_, before⟩ :: outer =>
      .ok ⟨outer, before, .element [.random row.toList n 1]⟩
    | token, _ => .error (.unexpected position .closeSquare (some token))
  | ⟨_, _, .closed⟩ => .error (.unexpected position .patternEnd (some token))

/-- The pattern of complete elements behind which nothing follows. -/
def closeRow (position : Nat) (openings : List Opening) (row : Array Node) :
    Except ParseError Pattern :=
  if row.isEmpty then .error (.unexpected position .element none)
  else
    match openings with
    | [] => .ok ⟨row.toList, false⟩
    | openings => .error (.unexpected position (expectedClose openings) none)

/-- The pattern that has been read when no token is left at `position`. -/
def finish (position : Nat) : Reading → Except ParseError Pattern
  | ⟨openings, row, .fresh⟩ => closeRow position openings row
  | ⟨openings, row, .element nodes⟩ => closeRow position openings (row ++ nodes)
  | ⟨_, _, .repeating _⟩ => .error (.unexpected position .number none)
  | ⟨_, _, .picking⟩ => .error (.unexpected position .number none)
  | ⟨_, _, .picked _⟩ => .error (.unexpected position .closeSquare none)
  | ⟨_, row, .closed⟩ => .ok ⟨row.toList, true⟩

/-- The rest of a pattern, from the token at `position` on. -/
def complete (keys : List Char) : Nat → Reading → List Token → Except ParseError Pattern
  | position, r, [] => r.finish position
  | position, r, token :: tokens =>
    match r.read keys position token with
    | .error e => .error e
    | .ok r => complete keys (position + 1) r tokens

end Reading

namespace Pattern

/-- The pattern that a list of tokens writes over the given keys. -/
def ofTokens (keys : List Char) (tokens : List Token) : Except ParseError Pattern :=
  Reading.start.complete keys 0 tokens

/-- The pattern that a text writes over the given keys. -/
def ofText (keys : List Char) (text : String) : Except PatternError Pattern :=
  match Token.scan keys text with
  | .error e => .error (.scan e)
  | .ok tokens =>
    match ofTokens keys tokens with
    | .error e => .error (.parse e)
    | .ok pattern => .ok pattern

end Pattern

end PieceSequencer
