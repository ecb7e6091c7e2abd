import PieceSequencer.Json.Codec
import PieceSequencer.Proofs.FirstFault

/-! # What is relied on in a codec

`Codec.Laws` is all that is asked of a codec for a value to come back.  Values stand inside other
values, so the laws are about a relation `Reads`: this is what the reader makes of the value,
wherever it stands in a document that the codec has written.  Arrays and records read as their
parts do, with the first fault in the order of the text, and a document reads as its one value.

The laws leave open how a document looks and which finite numbers come back (`Codec.Keeps`).  A
number that is not finite is written `null`, from which no number is read.  Where there can be no
other fault, `outcome` is what comes of a value, and the lemmas below put it together from its
parts. -/

namespace PieceSequencer.Json

/-! ### The laws -/

/-- The draft takes up the members one after the other, each for a field that has not been read,
until there are no more of them or one has a fault. -/
inductive Form.Takes {R : Type → Type} (Reads : ∀ {β : Type}, R β → Json → Except Fault β → Prop)
    {δ α : Type} (form : Form R δ α) : δ → List (String × Json) → Except Fault δ → Prop
  | nil (draft : δ) : form.Takes Reads draft [] (.ok draft)
  | cons {draft : δ} {name : String} {value : Json} {members : List (String × Json)}
      {field : Field R δ} {b : field.β} {result : Except Fault δ} :
      form.fields.find? (·.name = name) = some field → field.isRead draft = false →
      Reads field.value value (.ok b) → form.Takes Reads (field.set draft b) members result →
      form.Takes Reads draft ((name, value) :: members) result
  | fault {draft : δ} {name : String} {value : Json} {members : List (String × Json)}
      {field : Field R δ} {e : Fault} :
      form.fields.find? (·.name = name) = some field → field.isRead draft = false →
      Reads field.value value (.error e) →
      form.Takes Reads draft ((name, value) :: members) (.error e)

/-- What is relied on in a codec, for what its readers make of the values that it writes. -/
structure Codec.Laws (codec : Codec)
    (Reads : ∀ {α : Type}, codec.Reader α → Json → Except Fault α → Prop) : Prop where
  /-- A number reads inside a document as it does alone. -/
  number : ∀ v, Reads codec.number (.number v)
    (codec.read codec.number (codec.indented (.number v)))
  /-- What is not finite is written `null`. -/
  null : ∀ v : Binary64, v.isFinite = false → codec.indented (.number v) = "null"
  /-- No number is read from `null`. -/
  number_null : codec.read codec.number "null" = .error (.mismatch (.wrongKind .null "f64"))
  /-- A character is written as a text of its own. -/
  character : ∀ c : Char, Reads codec.character (.text c.toString) (.ok c)
  /-- A record is there if it is written. -/
  optional : ∀ {α : Type} {reader : codec.Reader α} {members : List (String × Json)}
    {result : Except Fault α}, Reads reader (.object members) result →
      Reads (codec.optional reader) (.object members) (result.map some)
  /-- An array reads as its items, from left to right. -/
  array : ∀ {α : Type} {item : codec.Reader α} {values : List Json}
    {results : List (Except Fault α)}, List.Forall₂ (Reads item) values results →
      Reads (codec.array item) (.array values) (results.mapM id)
  /-- So does one of bounded length, if there is room for its items. -/
  bounded : ∀ {α : Type} {item : codec.Reader α} {values : List Json}
    {results : List (Except Fault α)} {capacity : Nat}, values.length ≤ capacity →
      List.Forall₂ (Reads item) values results →
      ∃ result, result.map Subtype.val = results.mapM id ∧
        Reads (codec.bounded capacity item) (.array values) result
  /-- A record reads as the one of the draft that has taken up its members. -/
  record : ∀ {δ α : Type} {form : Form codec.Reader δ α} {members : List (String × Json)}
    {result : Except Fault δ}, form.Takes Reads form.start members result →
      Reads (codec.record form) (.object members) (result >>= form.complete)
  /-- A document reads as its one value. -/
  document : ∀ {α : Type} {reader : codec.Reader α} {value : Json} {result : Except Fault α},
    Reads reader value result → codec.read reader (codec.indented value) = result

/-- A finite number comes back as it was written. -/
def Codec.Keeps (codec : Codec) (v : Binary64) : Prop :=
  v.isFinite = true → codec.read codec.number (codec.indented (.number v)) = .ok v

/-! ### What comes back -/

/-- The fault of a number that is not there because it was not finite. -/
def noNumber : Fault := .mismatch (.wrongKind .null "f64")

/-- A value that comes back whole, or the fault of a number that is missing in it. -/
def outcome {α : Type} (whole : Bool) (a : α) : Except Fault α :=
  if whole then .ok a else .error noNumber

theorem map_outcome {α β : Type} (f : α → β) (whole : Bool) (a : α) :
    (outcome whole a).map f = outcome whole (f a) := by
  cases whole <;> rfl

/-- A value with a proof comes back as the value alone does. -/
theorem eq_outcome_of_map {α : Type} {p : α → Prop} {result : Except Fault { a : α // p a }}
    {whole : Bool} {a : α} (h : p a) (hresult : result.map Subtype.val = outcome whole a) :
    result = outcome whole ⟨a, h⟩ := by
  cases result with
  | error e =>
      cases whole with
      | false => exact congrArg Except.error (Except.error.inj hresult)
      | true => cases hresult
  | ok b =>
      cases whole with
      | false => cases hresult
      | true => exact congrArg Except.ok (Subtype.ext (Except.ok.inj hresult))

theorem mapM_outcome {α : Type} (whole : α → Bool) (as : List α) :
    (as.map fun a => outcome (whole a) a).mapM id = outcome (as.all whole) as := by
  induction as with
  | nil => rfl
  | cons a as ih =>
      rw [List.map_cons, List.mapM_cons, ih, List.all_cons]
      cases whole a <;> cases as.all whole <;> rfl

/-- A draft that takes up one member, and then the others. -/
theorem Form.Takes.outcome_cons {R : Type → Type}
    {Reads : ∀ {β : Type}, R β → Json → Except Fault β → Prop} {δ α : Type} {form : Form R δ α}
    {draft draft' : δ} {name : String} {value : Json} {members : List (String × Json)}
    {field : Field R δ} {b : field.β} {whole wholes : Bool}
    (hfind : form.fields.find? (·.name = name) = some field) (hnew : field.isRead draft = false)
    (hvalue : Reads field.value value (outcome whole b))
    (hmembers : form.Takes Reads (field.set draft b) members (outcome wholes draft')) :
    form.Takes Reads draft ((name, value) :: members) (outcome (whole && wholes) draft') := by
  cases whole with
  | false => exact .fault hfind hnew hvalue
  | true => exact .cons hfind hnew hvalue hmembers

namespace Codec.Laws

variable {codec : Codec} {Reads : ∀ {α : Type}, codec.Reader α → Json → Except Fault α → Prop}
  (hlaws : codec.Laws Reads)
include hlaws

theorem reads_number {v : Binary64} (h : codec.Keeps v) :
    Reads codec.number (.number v) (outcome v.isFinite v) := by
  have hnumber := hlaws.number v
  cases hv : v.isFinite with
  | false => rwa [hlaws.null v hv, hlaws.number_null] at hnumber
  | true => rwa [h hv] at hnumber

theorem reads_optional {α : Type} {reader : codec.Reader α} {members : List (String × Json)}
    {whole : Bool} {a : α} (h : Reads reader (.object members) (outcome whole a)) :
    Reads (codec.optional reader) (.object members) (outcome whole (some a)) :=
  map_outcome some whole a ▸ hlaws.optional h

section
variable {α : Type} {item : codec.Reader α} {write : α → Json} {whole : α → Bool} {as : List α}
  (hitem : ∀ a ∈ as, Reads item (write a) (outcome (whole a) a))
include hitem

omit hlaws in
theorem forall₂_outcome :
    List.Forall₂ (Reads item) (as.map write) (as.map fun a => outcome (whole a) a) := by
  rw [List.forall₂_map_left_iff, List.forall₂_map_right_iff, List.forall₂_same]
  exact hitem

theorem reads_array :
    Reads (codec.array item) (.array (as.map write)) (outcome (as.all whole) as) :=
  mapM_outcome whole as ▸ hlaws.array (forall₂_outcome hitem)

theorem reads_bounded {capacity : Nat} (h : as.length ≤ capacity) :
    Reads (codec.bounded capacity item) (.array (as.map write))
      (outcome (as.all whole) ⟨as, h⟩) := by
  have hroom : (as.map write).length ≤ capacity := by rwa [List.length_map]
  obtain ⟨result, hresult, hreads⟩ := hlaws.bounded hroom (forall₂_outcome hitem)
  rw [mapM_outcome] at hresult
  have hsame := eq_outcome_of_map (p := fun as : List α => as.length ≤ capacity) h hresult
  rwa [hsame] at hreads

end

theorem reads_record {δ α : Type} {form : Form codec.Reader δ α} {members : List (String × Json)}
    {whole : Bool} {draft : δ} {a : α}
    (hmembers : form.Takes Reads form.start members (outcome whole draft))
    (hfinish : form.finish draft = .ok a) :
    Reads (codec.record form) (.object members) (outcome whole a) := by
  have hcomplete : form.complete draft = .ok a := by rw [Form.complete, hfinish]
  have hrecord := hlaws.record hmembers
  cases whole with
  | false => exact hrecord
  | true =>
      have hwhole : Reads (codec.record form) (.object members) (form.complete draft) := hrecord
      rwa [hcomplete] at hwhole

end Codec.Laws

end PieceSequencer.Json
