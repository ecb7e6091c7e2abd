import PieceSequencer.Pattern.Basic
import PieceSequencer.Pattern.Token

/-! # The grammar of patterns

Which tokens write which nodes, as a relation. A pattern is a row of elements with at least one
node, perhaps with `~` behind it; an element is a part, perhaps with a repeat count; a part is a
piece, `@`, or a bracketed row with at least one node. A random group without a pick count visits
as many nodes as it has, if that number has 32 bits; otherwise it is not written. -/

namespace PieceSequencer

/-- What tokens can write. -/
inductive Phrase where
  | part
  | element
  | row
  deriving DecidableEq, Repr

/-- `Writes keys phrase tokens nodes`: over the given keys the tokens are such a phrase, and they
stand for these nodes. -/
inductive Writes (keys : List Char) : Phrase → List Token → List Node → Prop where
  | piece (key : Char) : Writes keys .part [.key key] [.single key]
  | every : Writes keys .part [.symbol .every] (keys.map Node.single)
  | group {tokens : List Token} {nodes : List Node} :
    Writes keys .row tokens nodes → nodes ≠ [] →
    Writes keys .part (.symbol .openRound :: tokens ++ [.symbol .closeRound]) [.group nodes 1]
  | shuffled {tokens : List Token} {nodes : List Node} {picks : UInt32} :
    Writes keys .row tokens nodes → nodes ≠ [] → picks.toNat = nodes.length →
    Writes keys .part (.symbol .openSquare :: tokens ++ [.symbol .closeSquare])
      [.random nodes picks 1]
  | random {tokens : List Token} {nodes : List Node} {picks : UInt32} :
    Writes keys .row tokens nodes → picks ≠ 0 → picks.toNat ≤ nodes.length →
    Writes keys .part
      (.symbol .openSquare :: tokens ++ [.symbol .pick, .number picks, .symbol .closeSquare])
      [.random nodes picks 1]
  | once {tokens : List Token} {nodes : List Node} :
    Writes keys .part tokens nodes → Writes keys .element tokens nodes
  | repeated {tokens : List Token} {nodes : List Node} {count : UInt32} :
    Writes keys .part tokens nodes → count ≠ 0 →
    Writes keys .element (tokens ++ [.symbol .times, .number count])
      (nodes.map (Node.withRepeats count))
  | nil : Writes keys .row [] []
  | cons {front back : List Token} {first rest : List Node} :
    Writes keys .element front first → Writes keys .row back rest →
    Writes keys .row (front ++ back) (first ++ rest)

/-- Over the given keys the tokens write the pattern. -/
inductive WritesPattern (keys : List Char) : List Token → Pattern → Prop where
  | ending {tokens : List Token} {nodes : List Node} :
    Writes keys .row tokens nodes → nodes ≠ [] → WritesPattern keys tokens ⟨nodes, false⟩
  | forever {tokens : List Token} {nodes : List Node} :
    Writes keys .row tokens nodes → nodes ≠ [] →
    WritesPattern keys (tokens ++ [.symbol .forever]) ⟨nodes, true⟩

/-- Rows one behind the other make a row. -/
theorem Writes.append {keys : List Char} {phrase : Phrase} {front back : List Token}
    {first rest : List Node} (hfront : Writes keys phrase front first) (hphrase : phrase = .row)
    (hback : Writes keys .row back rest) : Writes keys .row (front ++ back) (first ++ rest) := by
  induction hfront with
  | nil => simpa using hback
  | cons hfirst _ _ ih => simpa [List.append_assoc] using Writes.cons hfirst (ih rfl)
  | _ => cases hphrase

end PieceSequencer
