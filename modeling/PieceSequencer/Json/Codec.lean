import PieceSequencer.Json.Record

/-! # Codecs

A codec reads and writes documents. The program takes its codec as it is: it says of what kind the
values are that it reads, what the fields of its records are called and which of them may be left
out, and what the values are that it writes. How a document looks, how a number is rounded and
which fault comes first is up to the codec.

`codec` is the one that the readers and the two styles of this library make. It rounds every
number to the nearest one of the format, so each finite number comes back as it was written. A
codec that rounds less carefully keeps fewer of them. -/

namespace PieceSequencer.Json

/-- What reads and writes documents. -/
structure Codec where
  /-- What reads a value of a type wherever one is wanted. -/
  Reader : Type → Type
  number : Reader Binary64
  character : Reader Char
  /-- `null` or a value. -/
  optional {α : Type} : Reader α → Reader (Option α)
  array {α : Type} : Reader α → Reader (List α)
  /-- An array of at most so many items. -/
  bounded {α : Type} (capacity : Nat) :
    Reader α → Reader { items : List α // items.length ≤ capacity }
  record {δ α : Type} : Form Reader δ α → Reader α
  /-- Reads a whole document. -/
  read {α : Type} : Reader α → String → Except Fault α
  /-- Writes a value on one line. -/
  compact : Json → String
  /-- Writes a value with one member or item a line. -/
  indented : Json → String

/-- The codec that reads a document from the front. -/
def codec : Codec where
  Reader := Reader
  number := readNumber
  character := readCharacter
  optional := readOptional
  array := fun item => readArray "a sequence" fun _ => item
  bounded := readBounded
  record := Form.read
  read := readDocument
  compact := compact
  indented := indented

end PieceSequencer.Json
