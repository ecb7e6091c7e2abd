import PieceSequencer.Bag.Traversal
import PieceSequencer.Catalogue.Standard
import PieceSequencer.Pattern.Length
import PieceSequencer.Pattern.Parser
import PieceSequencer.Shuffle.Congruential

/-! # Bags

A bag hands out the pieces of a pattern one by one. `pick` takes the next piece; `peek` looks at
pieces to come, which the bag then holds until they are picked. Pieces are resolved only when
one of the two needs them. -/

namespace PieceSequencer

/-- A running sequence. -/
structure Bag (σ : Type) where
  catalogue : Catalogue
  pattern : Pattern
  shuffle : Shuffle σ
  arena : Arena
  traversal : Traversal arena σ
  /-- Catalogue places of resolved pieces that have not been picked. -/
  buffer : List Nat

/-- A bag that could not be built, and the state that its shuffle has reached. -/
structure BuildFailure (σ : Type) where
  error : BuildError
  source : σ

namespace Bag

variable {σ : Type}

/-- Checks the catalogue, reads the pattern over its keys and walks to the first piece. -/
def build (catalogue : Catalogue) (text : String) (shuffle : Shuffle σ) (source : σ) :
    Except (BuildFailure σ) (Bag σ) :=
  match catalogue.validate with
  | .error e => .error ⟨.validation e, source⟩
  | .ok () =>
    match Pattern.ofText catalogue.keys text with
    | .error e => .error ⟨.pattern e, source⟩
    | .ok pattern =>
      match Arena.ofPattern catalogue pattern with
      | .error fault => .error ⟨.violated fault, source⟩
      | .ok arena =>
        match Traversal.start shuffle source with
        | (traversal, some fault) => .error ⟨.violated fault, traversal.source⟩
        | (traversal, none) => .ok ⟨catalogue, pattern, shuffle, arena, traversal, []⟩

/-- A bag with the seeded shuffle. -/
def seeded (catalogue : Catalogue) (text : String) (seed : UInt32) :
    Except (BuildFailure Congruential) (Bag Congruential) :=
  build catalogue text Congruential.shuffle (.ofSeed seed)

/-- Shuffled bags of the standard pieces, forever. -/
def standard (seed : UInt32) : Except (BuildFailure Congruential) (Bag Congruential) :=
  seeded .standard standardPattern seed

/-! ### Looking at a bag -/

/-- The keys of the pieces in catalogue order. -/
def keys (bag : Bag σ) : List Char := bag.catalogue.keys

/-- The state of the shuffle. -/
def source (bag : Bag σ) : σ := bag.traversal.source

/-- The number of pieces resolved and not picked. -/
def buffered (bag : Bag σ) : Nat := bag.buffer.length

/-- Whether only buffered pieces remain. -/
def isDrained (bag : Bag σ) : Bool := bag.traversal.isOver

/-- Whether no piece remains. -/
def isExhausted (bag : Bag σ) : Bool := bag.buffer.isEmpty && bag.isDrained

/-- A one-line summary of a bag. -/
def summary (bag : Bag σ) : String :=
  "BagGenerator \x7b pattern: " ++ Text.quote bag.pattern.text ++
    ", piece_keys: [" ++ ", ".intercalate (bag.keys.map Text.quoteChar) ++
    "], depth: " ++ Numeral.text bag.traversal.stack.length ++
    ", buffered: " ++ Numeral.text bag.buffered ++ " \x7d"

/-! ### Taking pieces -/

/-- Resolves pieces until the buffer holds `n`, the walk ends or a fault stops it. -/
def refill (bag : Bag σ) (n : Nat) : Bag σ × Option Fault :=
  let missing := n - (bag.buffer.take n).length
  if missing = 0 then (bag, none)
  else
    let (traversal, pulled, fault) := bag.traversal.pull bag.shuffle missing
    ({ bag with traversal := traversal, buffer := bag.buffer ++ pulled }, fault)

/-- The piece at a place of the catalogue. -/
def piece (bag : Bag σ) (index : Nat) : Except BagError Piece :=
  match bag.catalogue.piece? index with
  | some piece => .ok piece
  | none => .error (.violated .pieceOutsideCatalogue)

/-- Takes the next piece. -/
def pick (bag : Bag σ) : Bag σ × Except BagError Piece :=
  match bag.refill 1 with
  | (bag, some fault) => (bag, .error (.violated fault))
  | (bag, none) =>
    match bag.buffer with
    | [] => (bag, .error .exhausted)
    | index :: rest => ({ bag with buffer := rest }, bag.piece index)

/-- Looks at up to `n` pieces to come, fewer if the pattern ends before. -/
def peek (bag : Bag σ) (n : Nat) : Bag σ × Except BagError (List Piece) :=
  match bag.refill n with
  | (bag, some fault) => (bag, .error (.violated fault))
  | (bag, none) => (bag, (bag.buffer.take n).mapM bag.piece)

/-- The key of the next piece, which is taken. -/
def pickKey (bag : Bag σ) : Bag σ × Except BagError Char :=
  let (bag, result) := bag.pick
  (bag, result.map Piece.key)

/-- The keys of up to `n` pieces to come. -/
def peekKeys (bag : Bag σ) (n : Nat) : Bag σ × Except BagError (List Char) :=
  let (bag, result) := bag.peek n
  (bag, result.map (·.map Piece.key))

/-- Takes up to `n` pieces behind those with the keys `taken`, stopping at the first that is not
given. -/
def pickKeysOnto (bag : Bag σ) : Nat → Array Char → Bag σ × Array Char × Option BagError
  | 0, taken => (bag, taken, none)
  | n + 1, taken =>
    match bag.pickKey with
    | (bag, .ok key) => bag.pickKeysOnto n (taken.push key)
    | (bag, .error e) => (bag, taken, some e)

/-- Takes up to `n` pieces and gives their keys, with what stopped it, if anything did. -/
def pickKeys (bag : Bag σ) (n : Nat) : Bag σ × List Char × Option BagError :=
  let (bag, taken, stop) := bag.pickKeysOnto n #[]
  (bag, taken.toList, stop)

end Bag

/-! ### Bags of any kind -/

/-- What the rest of a game asks of a bag, whatever kind of bag it is. -/
structure Dealer (β : Type) where
  pieces : β → Catalogue
  keys : β → List Char
  pick : β → β × Except BagError Piece
  peek : β → Nat → β × Except BagError (List Piece)

/-- The bags of a pattern. -/
def Bag.dealer (σ : Type) : Dealer (Bag σ) where
  pieces := Bag.catalogue
  keys := Bag.keys
  pick := Bag.pick
  peek := Bag.peek

@[simp] theorem Bag.dealer_pick (σ : Type) : (Bag.dealer σ).pick = Bag.pick := rfl

@[simp] theorem Bag.dealer_peek (σ : Type) : (Bag.dealer σ).peek = Bag.peek := rfl

end PieceSequencer
