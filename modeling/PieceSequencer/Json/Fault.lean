import PieceSequencer.Json.Basic
import PieceSequencer.Text.Quoted

/-! # Faults of a document

A document that cannot be read stops too early, is malformed, or is well formed so far but does
not hold what is wanted. Only the last kind says more about itself. -/

namespace PieceSequencer.Json

/-- What a document holds at some place. -/
inductive Found where
  | null
  | boolean (value : Bool)
  | integer (value : Int)
  | number (value : Binary64)
  | text (value : String)
  | array
  | object
  deriving DecidableEq, Repr

/-- In what way a document does not hold what is wanted. -/
inductive Mismatch where
  | missingField (name : String)
  | duplicateField (name : String)
  | wrongKind (found : Found) (wanted : String)
  | wrongText (found : String) (wanted : String)
  | wrongLength (length : Nat) (wanted : String)
  deriving DecidableEq, Repr

/-- Why a document cannot be read. -/
inductive Fault where
  | ended
  | malformed
  | mismatch (cause : Mismatch)
  deriving DecidableEq, Repr

/-- A found value as a message names it. -/
def Found.describe : Found → String
  | .null => "null"
  | .boolean value => s!"boolean `{value}`"
  | .integer value => s!"integer `{value}`"
  | .number value => "floating point `" ++ String.ofList (numeral value) ++ "`"
  | .text value => "string " ++ Text.quote value
  | .array => "sequence"
  | .object => "map"

/-- The message of a mismatch. -/
def Mismatch.message : Mismatch → String
  | .missingField name => s!"missing field `{name}`"
  | .duplicateField name => s!"duplicate field `{name}`"
  | .wrongKind found wanted => s!"invalid type: {found.describe}, expected {wanted}"
  | .wrongText found wanted => s!"invalid value: {(Found.text found).describe}, expected {wanted}"
  | .wrongLength length wanted => s!"invalid length {length}, expected {wanted}"

end PieceSequencer.Json
