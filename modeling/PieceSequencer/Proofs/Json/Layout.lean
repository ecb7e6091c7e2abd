import PieceSequencer.Proofs.Json.Number

/-! # The text of a value

`Json.append` writes behind a text that grows.  What it writes does not depend on that text
(`Json.toList_append`), so the text of a value is put together from the texts of its parts, here
with the commas in front of the parts, where a reader looks for them. -/

namespace PieceSequencer.Json

/-- What stands before a closing bracket. -/
def Style.closing (style : Style) (depth : Nat) (empty : Bool) : List Char :=
  if empty then [] else (style.break depth).toList

mutual

/-- The text of a value that stands at nesting depth `depth`. -/
def chars (style : Style) (depth : Nat) : Json → List Char
  | .null => "null".toList
  | .boolean true => "true".toList
  | .boolean false => "false".toList
  | .natural n => Numeral.write n
  | .number v => numeral v
  | .text t => quoted t
  | .array items =>
    '[' :: (itemsChars style (depth + 1) true items ++ (style.closing depth items.isEmpty ++ [']']))
  | .object members =>
    '\x7b' :: (membersChars style (depth + 1) true members ++
      (style.closing depth members.isEmpty ++ ['\x7d']))

/-- Items, all or those behind the first. -/
def itemsChars (style : Style) (depth : Nat) (first : Bool) : List Json → List Char
  | [] => []
  | item :: items =>
    (comma first).toList ++ ((style.break depth).toList ++
      (chars style depth item ++ itemsChars style depth false items))

/-- Members, all or those behind the first. -/
def membersChars (style : Style) (depth : Nat) (first : Bool) : List (String × Json) → List Char
  | [] => []
  | (name, value) :: members =>
    (comma first).toList ++ ((style.break depth).toList ++
      (quoted name ++ (style.colon.toList ++
        (chars style depth value ++ membersChars style depth false members))))

end

theorem itemsChars_false (style : Style) (depth : Nat) (items : List Json) :
    itemsChars style depth false items =
      (comma items.isEmpty).toList ++ itemsChars style depth true items := by
  cases items <;> simp [itemsChars, comma]

theorem membersChars_false (style : Style) (depth : Nat) (members : List (String × Json)) :
    membersChars style depth false members =
      (comma members.isEmpty).toList ++ membersChars style depth true members := by
  cases members <;> simp [membersChars, comma]

mutual

/-- A value is written behind what has been written. -/
theorem toList_append (style : Style) (depth : Nat) (out : String) (value : Json) :
    (append style depth out value).toList = out.toList ++ chars style depth value := by
  match value with
  | .null | .boolean true | .boolean false => simp [append, chars]
  | .natural n => simp [append, chars, Numeral.text]
  | .number v => simp [append, chars]
  | .text t => simp [append, chars]
  | .array items =>
      have hitems := toList_appendItems style (depth + 1) (out ++ "[") items
      rw [append, chars]
      cases items with
      | nil => simp [itemsChars, Style.closing]
      | cons item items => simp [hitems, Style.closing]
  | .object members =>
      have hmembers := toList_appendMembers style (depth + 1) (out ++ "\x7b") members
      rw [append, chars]
      cases members with
      | nil => simp [membersChars, Style.closing]
      | cons member members => simp [hmembers, Style.closing]

theorem toList_appendItems (style : Style) (depth : Nat) (out : String) (items : List Json) :
    (appendItems style depth out items).toList =
      out.toList ++ itemsChars style depth true items := by
  match items with
  | [] => simp [appendItems, itemsChars]
  | item :: items =>
      rw [appendItems, toList_appendItems, String.toList_append, toList_append, itemsChars,
        itemsChars_false]
      simp [comma]

theorem toList_appendMembers (style : Style) (depth : Nat) (out : String)
    (members : List (String × Json)) : (appendMembers style depth out members).toList =
      out.toList ++ membersChars style depth true members := by
  match members with
  | [] => simp [appendMembers, membersChars]
  | (name, value) :: members =>
      rw [appendMembers, toList_appendMembers, String.toList_append, toList_append, membersChars,
        membersChars_false]
      simp [comma]

end

theorem toList_indented (value : Json) : value.indented.toList = chars .indented 0 value := by
  rw [indented, toList_append]
  rfl

/-! ### On one line

A value on one line has no line breaks, so its text does not know how deep it stands. -/

mutual

theorem chars_compact_depth (depth depth' : Nat) (value : Json) :
    chars .compact depth value = chars .compact depth' value := by
  match value with
  | .null | .boolean true | .boolean false | .natural _ | .number _ | .text _ => rfl
  | .array items =>
      rw [chars, chars, itemsChars_compact_depth (depth + 1) (depth' + 1)]
      rfl
  | .object members =>
      rw [chars, chars, membersChars_compact_depth (depth + 1) (depth' + 1)]
      rfl

theorem itemsChars_compact_depth (depth depth' : Nat) (first : Bool) (items : List Json) :
    itemsChars .compact depth first items = itemsChars .compact depth' first items := by
  match items with
  | [] => rfl
  | item :: items =>
      rw [itemsChars, itemsChars, chars_compact_depth depth depth',
        itemsChars_compact_depth depth depth']
      rfl

theorem membersChars_compact_depth (depth depth' : Nat) (first : Bool)
    (members : List (String × Json)) :
    membersChars .compact depth first members = membersChars .compact depth' first members := by
  match members with
  | [] => rfl
  | (name, value) :: members =>
      rw [membersChars, membersChars, chars_compact_depth depth depth',
        membersChars_compact_depth depth depth']
      rfl

end

theorem chars_compact (depth : Nat) (value : Json) :
    chars .compact depth value = value.compact.toList := by
  rw [compact, toList_append, chars_compact_depth depth 0]
  rfl

theorem compact_null : compact .null = "null" := rfl

theorem compact_boolean (value : Bool) :
    compact (.boolean value) = if value then "true" else "false" := by
  cases value <;> rfl

theorem compact_natural (n : Nat) : compact (.natural n) = Numeral.text n := by
  rw [compact, append, String.empty_append]

theorem compact_text (text : String) : compact (.text text) = String.ofList (quoted text) := by
  rw [compact, append, String.empty_append]

/-- A member on one line. -/
def memberText (member : String × Json) : String :=
  String.ofList (quoted member.1) ++ ":" ++ member.2.compact

theorem itemsChars_compact (depth : Nat) (items : List Json) :
    itemsChars .compact depth true items = (",".intercalate (items.map compact)).toList := by
  induction items with
  | nil => rfl
  | cons item items ih =>
      rw [itemsChars, itemsChars_false, ih, chars_compact]
      cases items <;> simp [comma, Style.break]

theorem membersChars_compact (depth : Nat) (members : List (String × Json)) :
    membersChars .compact depth true members =
      (",".intercalate (members.map memberText)).toList := by
  induction members with
  | nil => rfl
  | cons member members ih =>
      rw [membersChars, membersChars_false, ih, chars_compact]
      cases members <;> simp [comma, Style.break, Style.colon, memberText]

/-- An array on one line is its items with commas between them. -/
theorem compact_array (items : List Json) :
    (Json.array items).compact = "[" ++ ",".intercalate (items.map compact) ++ "]" := by
  rw [← String.toList_inj, ← chars_compact 0, chars, itemsChars_compact]
  cases items <;> simp [Style.closing, Style.break]

/-- An object on one line is its members with commas between them. -/
theorem compact_object (members : List (String × Json)) :
    (Json.object members).compact =
      "\x7b" ++ ",".intercalate (members.map memberText) ++ "\x7d" := by
  rw [← String.toList_inj, ← chars_compact 0, chars, membersChars_compact]
  cases members <;> simp [Style.closing, Style.break]

end PieceSequencer.Json
