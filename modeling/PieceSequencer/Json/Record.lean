import PieceSequencer.Json.Reader

/-! # Records in a document

A record is written as an object with named members or as an array of its fields in order. In
an object unknown members are skipped, a known one may come once, and a missing one is
reported in the order of the fields.

A form says what a record consists of. It takes what reads the values of the fields as it is,
so the forms of a program are the same for every kind `R` of readers. -/

namespace PieceSequencer.Json

/-- One field of a record, with its place in a draft of the record. -/
structure Field (R : Type → Type) (δ : Type) where
  {β : Type}
  name : String
  /-- Whether the record can do without the field. -/
  optional : Bool
  value : R β
  get : δ → Option β
  set : δ → β → δ

/-- How a record is read: its title in messages, its fields, the draft to start from, and the record
of a draft, or the name of the first field that is missing. -/
structure Form (R : Type → Type) (δ α : Type) where
  title : String
  fields : List (Field R δ)
  start : δ
  finish : δ → Except String α

namespace Field

variable {R : Type → Type} {δ : Type}

/-- Whether a draft has the field. -/
def isRead (field : Field R δ) (draft : δ) : Bool := (field.get draft).isSome

/-- The value of a field that a record cannot do without. -/
def demand {β : Type} (name : String) : Option β → Except String β
  | some b => .ok b
  | none => .error name

/-- Reads the value of a field into a draft. -/
def read (field : Field Reader δ) (draft : δ) : Reader δ := fun s => do
  let (b, s) ← field.value s
  return (field.set draft b, s)

end Field

namespace Form

variable {R : Type → Type} {δ α : Type}

/-- The record of a draft in which all members have been taken up. -/
def complete (form : Form R δ α) (draft : δ) : Except Fault α :=
  match form.finish draft with
  | .ok a => .ok a
  | .error name => .error (.mismatch (.missingField name))

/-- The fields of a record from index `index` on, written as an array. -/
def readFields (form : Form Reader δ α) : List (Field Reader δ) → Nat → δ → Reader δ
  | [], _, draft, s => do return (draft, ← closeArray s)
  | field :: fields, index, draft, s => do
    match ← nextItem (index == 0) s with
    | some s =>
      let (draft, s) ← field.read draft s
      readFields form fields (index + 1) draft s
    | none =>
      if field.optional then readFields form fields (index + 1) draft s
      else
        .error (.mismatch (.wrongLength index
          s!"{form.title} with {form.fields.length} elements"))

/-- The members of a record written as an object. The fuel bounds their number. -/
def readMembers (form : Form Reader δ α) : Nat → Bool → δ → Reader δ
  | 0, _, _, _ => .error .malformed
  | fuel + 1, first, draft, s => do
    match ← nextName first s with
    | none => return (draft, ← closeObject s)
    | some s =>
      let (name, s) ← readQuoted s
      match form.fields.find? (·.name = String.ofList name) with
      | none => do readMembers form fuel false draft (← skip (← readColon s))
      | some field =>
        if field.isRead draft then .error (.mismatch (.duplicateField field.name))
        else do
          let (draft, s) ← field.read draft (← readColon s)
          readMembers form fuel false draft s

/-- A record in either form. -/
def read (form : Form Reader δ α) : Reader α := fun s => do
  let (draft, s) ← match skipSpace s with
    | '[' :: s => form.readFields form.fields 0 form.start s
    | '\x7b' :: s => form.readMembers (s.length + 1) true form.start s
    | s => .error (wrongKind form.title s)
  return (← form.complete draft, s)

end Form

end PieceSequencer.Json
