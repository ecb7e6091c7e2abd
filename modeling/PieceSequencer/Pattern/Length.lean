import PieceSequencer.Pattern.Basic

/-! # The length of a pattern

How many pieces one pass of a pattern produces, where that number is the same for every order of
its random groups and has 64 bits. A random group has a fixed length if all its children are
visited or if they are equally long. -/

namespace PieceSequencer

/-- A length of at most 64 bits. -/
def fitting (n : Nat) : Option Nat := if n < UInt64.size then some n else none

/-- The sum of some lengths. -/
def total (lengths : List Nat) : Nat := lengths.foldr (· + ·) 0

namespace Node

/-- The length of one round of a random group whose children have the given lengths. -/
def roundLength? (lengths : List Nat) (picks : Nat) : Option Nat :=
  match lengths with
  | [] => none
  | first :: others =>
    if picks = lengths.length then fitting (total lengths)
    else if picks < lengths.length && others.any (· != first) then none
    else fitting (first * picks)

mutual

/-- The number of pieces of a node with its repeats. -/
def length? : Node → Option Nat
  | .piece _ r => some r.toNat
  | .group children r => do
    let once ← fitting (total (← lengths? children))
    fitting (once * r.toNat)
  | .random children picks r => do
    let once ← roundLength? (← lengths? children) picks.toNat
    fitting (once * r.toNat)

/-- The lengths of nodes in a row. -/
def lengths? : List Node → Option (List Nat)
  | [] => some []
  | node :: nodes => do
    let first ← length? node
    return first :: (← lengths? nodes)

end

end Node

/-- The number of pieces of a pattern that ends. -/
def Pattern.length? (p : Pattern) : Option Nat :=
  if p.forever then none else do fitting (total (← Node.lengths? p.children))

end PieceSequencer
