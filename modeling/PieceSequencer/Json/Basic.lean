import PieceSequencer.Binary64.Layout

/-! # Document values

The values that reports, token lists, pattern trees and catalogues are written as, and their
text in two styles: `compact` on one line, `indented` with one member or item a line. Members
keep their order. -/

namespace PieceSequencer

/-- A value of a document. -/
inductive Json where
  | null
  | boolean (value : Bool)
  | natural (value : Nat)
  | number (value : Binary64)
  | text (value : String)
  | array (items : List Json)
  | object (members : List (String × Json))
  deriving Repr

namespace Json

/-! ### Texts and numbers -/

/-- One character inside double quotes. Only the quote, the backslash and the control characters
below the space are escaped. -/
def escape (c : Char) : List Char :=
  if c = '"' then ['\\', '"']
  else if c = '\\' then ['\\', '\\']
  else if c = '\x08' then ['\\', 'b']
  else if c = '\x0c' then ['\\', 'f']
  else if c = '\n' then ['\\', 'n']
  else if c = '\r' then ['\\', 'r']
  else if c = '\t' then ['\\', 't']
  else if c.toNat < 0x20 then
    ['\\', 'u', '0', '0'] ++ (if c.toNat < 0x10 then ['0'] else []) ++ Numeral.writeHex c.toNat
  else [c]

/-- A text between double quotes. -/
def quoted (text : String) : List Char := '"' :: text.toList.flatMap escape ++ ['"']

/-- A number; what is not finite has no number and is written `null`. -/
def numeral : Binary64 → List Char
  | .finite negative m => Layout.document.finite negative m
  | _ => ['n', 'u', 'l', 'l']

/-! ### Layout -/

/-- How the parts of an array or object are set apart. -/
inductive Style where
  | compact
  | indented
  deriving DecidableEq, Repr

/-- What stands before a part at nesting depth `depth`. -/
def Style.break (depth : Nat) : Style → String
  | .compact => ""
  | .indented => String.ofList ('\n' :: List.replicate (2 * depth) ' ')

/-- What stands between the name and the value of a member. -/
def Style.colon : Style → String
  | .compact => ":"
  | .indented => ": "

/-- What stands behind a part: a comma if another part follows. -/
def comma (last : Bool) : String := if last then "" else ","

mutual

/-- Writes a value that stands at nesting depth `depth` behind the text `out`. -/
def append (style : Style) (depth : Nat) (out : String) : Json → String
  | .null => out ++ "null"
  | .boolean true => out ++ "true"
  | .boolean false => out ++ "false"
  | .natural n => out ++ Numeral.text n
  | .number v => out ++ String.ofList (numeral v)
  | .text t => out ++ String.ofList (quoted t)
  | .array items =>
    if items.isEmpty then out ++ "[]"
    else appendItems style (depth + 1) (out ++ "[") items ++ style.break depth ++ "]"
  | .object members =>
    if members.isEmpty then out ++ "\x7b\x7d"
    else appendMembers style (depth + 1) (out ++ "\x7b") members ++ style.break depth ++ "\x7d"

/-- Writes the items of an array with commas between them. -/
def appendItems (style : Style) (depth : Nat) (out : String) : List Json → String
  | [] => out
  | item :: items =>
    appendItems style depth
      (append style depth (out ++ style.break depth) item ++ comma items.isEmpty) items

/-- Writes the members of an object with commas between them. -/
def appendMembers (style : Style) (depth : Nat) (out : String) : List (String × Json) → String
  | [] => out
  | (name, value) :: members =>
    appendMembers style depth
      (append style depth
        (out ++ style.break depth ++ String.ofList (quoted name) ++ style.colon) value ++
        comma members.isEmpty) members

end

/-- A value on one line. -/
def compact (value : Json) : String := value.append .compact 0 ""

/-- A value with one item or member a line, two spaces deeper at each level. -/
def indented (value : Json) : String := value.append .indented 0 ""

end Json

end PieceSequencer
