import PieceSequencer.Text.Numeral

/-! # Patterns

A pattern is a list of nodes, with a mark that the last of them is repeated forever. A node is a
piece, a group of nodes in order, or a random group, of which each round visits the first few
nodes of a fresh order. Every node has a repeat count. -/

namespace PieceSequencer

/-- A part of a pattern. -/
inductive Node where
  | piece (key : Char) (repeats : UInt32)
  | group (children : List Node) (repeats : UInt32)
  | random (children : List Node) (picks : UInt32) (repeats : UInt32)
  deriving Repr

namespace Node

instance : Inhabited Node := ⟨.piece 'T' 1⟩

/-- A piece, once. -/
def single (key : Char) : Node := .piece key 1

/-- A random group that visits all its children, once. -/
def shuffled (children : List Node) : Node :=
  .random children (UInt32.ofNat children.length) 1

/-- How often a node is repeated. -/
def repeats : Node → UInt32
  | .piece _ r => r
  | .group _ r => r
  | .random _ _ r => r

/-- The same node with another repeat count. -/
def withRepeats (count : UInt32) : Node → Node
  | .piece key _ => .piece key count
  | .group children _ => .group children count
  | .random children picks _ => .random children picks count

/-- The same node with another pick count, if it has one. -/
def withPicks (count : UInt32) : Node → Node
  | .random children _ r => .random children count r
  | node => node

@[simp] theorem repeats_withRepeats (count : UInt32) (node : Node) :
    (node.withRepeats count).repeats = count := by
  cases node <;> rfl

/-! ### Equality -/

mutual

/-- Equality of nodes is decided part by part. -/
def decEq : (a b : Node) → Decidable (a = b)
  | .piece k r, .piece l s => decidable_of_iff (k = l ∧ r = s) (by simp)
  | .group as r, .group bs s =>
    match decEqList as bs with
    | .isTrue same => decidable_of_iff (r = s) (by simp [same])
    | .isFalse differ => .isFalse (by simp [differ])
  | .random as p r, .random bs q s =>
    match decEqList as bs with
    | .isTrue same => decidable_of_iff (p = q ∧ r = s) (by simp [same])
    | .isFalse differ => .isFalse (by simp [differ])
  | .piece .., .group .. => .isFalse (by simp)
  | .piece .., .random .. => .isFalse (by simp)
  | .group .., .piece .. => .isFalse (by simp)
  | .group .., .random .. => .isFalse (by simp)
  | .random .., .piece .. => .isFalse (by simp)
  | .random .., .group .. => .isFalse (by simp)

/-- Equality of lists of nodes is decided node by node. -/
def decEqList : (as bs : List Node) → Decidable (as = bs)
  | [], [] => .isTrue rfl
  | a :: as, b :: bs =>
    match decEq a b with
    | .isFalse differ => .isFalse (by simp [differ])
    | .isTrue same =>
      match decEqList as bs with
      | .isTrue rest => .isTrue (by simp [same, rest])
      | .isFalse differ => .isFalse (by simp [differ])
  | [], _ :: _ => .isFalse (by simp)
  | _ :: _, [] => .isFalse (by simp)

end

instance : DecidableEq Node := decEq

end Node

/-- A whole pattern. -/
structure Pattern where
  children : List Node
  /-- The last child is repeated forever. -/
  forever : Bool
  deriving DecidableEq, Repr

/-! ### Canonical text

Every piece is written out, a count only where it says something, and nothing stands between the
parts. -/

namespace Node

/-- The repeat count of a node, which is written unless it is one. -/
def repeatChars (count : UInt32) : List Char :=
  if count = 1 then [] else '*' :: Numeral.write count.toNat

/-- The pick count of a random group, which is written unless every child is visited. -/
def pickChars (picks : UInt32) (children : Nat) : List Char :=
  if picks.toNat = children then [] else ':' :: Numeral.write picks.toNat

mutual

/-- The canonical text of a node. -/
def chars : Node → List Char
  | .piece key r => key :: repeatChars r
  | .group children r => '(' :: charsList children ++ ')' :: repeatChars r
  | .random children picks r =>
    '[' :: charsList children ++ pickChars picks children.length ++ ']' :: repeatChars r

/-- The canonical text of nodes in a row. -/
def charsList : List Node → List Char
  | [] => []
  | node :: nodes => chars node ++ charsList nodes

end

end Node

namespace Pattern

/-- The canonical text of a pattern, as characters. -/
def chars (p : Pattern) : List Char :=
  Node.charsList p.children ++ if p.forever then ['~'] else []

/-- The canonical text of a pattern. -/
def text (p : Pattern) : String := String.ofList p.chars

end Pattern

end PieceSequencer
