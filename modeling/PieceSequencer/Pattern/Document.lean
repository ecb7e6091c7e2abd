import PieceSequencer.Json.Basic
import PieceSequencer.Pattern.Basic
import PieceSequencer.Pattern.Token

/-! # Tokens and patterns as document values -/

namespace PieceSequencer

/-- A token: a number or a key has a value, a symbol is its own type. -/
def Token.toJson : Token → Json
  | .number n => .object [("type", .text "NUMBER"), ("value", .natural n.toNat)]
  | .key k => .object [("type", .text "PIECE"), ("value", .text k.toString)]
  | .symbol s => .object [("type", .text s.char.toString)]

namespace Node

mutual

/-- A node with all its counts. -/
def toJson : Node → Json
  | .piece k r =>
    .object [("type", .text "piece"), ("value", .text k.toString), ("repeat", .natural r.toNat)]
  | .group children r =>
    .object [("type", .text "group"), ("children", .array (listToJson children)),
      ("repeat", .natural r.toNat)]
  | .random children picks r =>
    .object [("type", .text "random-group"), ("children", .array (listToJson children)),
      ("pick_count", .natural picks.toNat), ("repeat", .natural r.toNat)]

/-- The items for nodes in a row. -/
def listToJson : List Node → List Json
  | [] => []
  | node :: nodes => toJson node :: listToJson nodes

end

end Node

/-- A pattern with its nodes. -/
def Pattern.toJson (p : Pattern) : Json :=
  .object [("children", .array (Node.listToJson p.children)),
    ("repeat_last_element", .boolean p.forever)]

end PieceSequencer
