import PieceSequencer.Json.Fault

/-! # Reading a document

Readers consume a prefix of the remaining characters and report the first fault in text order.
A part that is wanted is read strictly; a part that nobody wants is skipped, which accepts any
nesting and half of a surrogate pair, and tells an incomplete number apart from nothing. -/

namespace PieceSequencer.Json

/-- What reads a value from the front of a text. -/
abbrev Reader (α : Type) := List Char → Except Fault (α × List Char)

/-- The characters that may stand between the parts of a document. -/
def isSpace (c : Char) : Bool := c = ' ' || c = '\n' || c = '\t' || c = '\r'

def skipSpace (s : List Char) : List Char := s.dropWhile isSpace

/-- What follows the given characters, which have to come next. -/
def expect : List Char → List Char → Except Fault (List Char)
  | [], s => .ok s
  | _ :: _, [] => .error .ended
  | wanted :: more, c :: s => if c = wanted then expect more s else .error .malformed

/-! ### Numbers -/

/-- A number as it is written. -/
structure Written where
  negative : Bool
  whole : List Char
  fraction : Option (List Char)
  exponent : Option Int
  deriving Repr

/-- A run of digits, of which there has to be one at least. -/
def readDigits (s : List Char) : Except Fault (List Char × List Char) :=
  match s with
  | [] => .error .ended
  | c :: _ =>
    if c.isDigit then .ok (s.takeWhile Char.isDigit, s.dropWhile Char.isDigit)
    else .error .malformed

/-- The digits before the point: a leading zero stands alone. -/
def readWhole (s : List Char) : Except Fault (List Char × List Char) :=
  match s with
  | '0' :: c :: _ => if c.isDigit then .error .malformed else .ok (['0'], s.drop 1)
  | s => readDigits s

/-- The point and the digits behind it, if any. -/
def readFraction : Reader (Option (List Char))
  | '.' :: s => (readDigits s).map fun (run, s) => (some run, s)
  | s => .ok (none, s)

/-- The power of ten, if any. -/
def readExponent : Reader (Option Int)
  | c :: s =>
    if c = 'e' || c = 'E' then
      match s with
      | '-' :: s => (readDigits s).map fun (run, s) => (some (-(Numeral.value run : Int)), s)
      | '+' :: s => (readDigits s).map fun (run, s) => (some (Numeral.value run : Int), s)
      | s => (readDigits s).map fun (run, s) => (some (Numeral.value run : Int), s)
    else .ok (none, c :: s)
  | [] => .ok (none, [])

/-- A number as it is written. -/
def readWritten (s : List Char) : Except Fault (Written × List Char) := do
  let (negative, s) := match s with
    | '-' :: s => (true, s)
    | s => (false, s)
  let (whole, s) ← readWhole s
  let (fraction, s) ← readFraction s
  let (exponent, s) ← readExponent s
  return (⟨negative, whole, fraction, exponent⟩, s)

/-- The nearest number of the format, unless the written one lies beyond the largest. -/
def Written.nearest? (w : Written) : Option Binary64 :=
  ((Decimal.ofParts w.whole (w.fraction.getD []) (w.exponent.getD 0)).nearest?).map
    (Binary64.finite w.negative)

/-- A whole number of 64 bits, if it is written as one. Negative zero is none. -/
def Written.integer? (w : Written) : Option Int :=
  if w.fraction.isSome || w.exponent.isSome then none
  else
    let n := Numeral.value w.whole
    if w.negative then if 0 < n && n ≤ 1 <<< 63 then some (-(n : Int)) else none
    else if n < UInt64.size then some (n : Int) else none

/-! ### Texts -/

/-- The value of a hexadecimal digit. -/
def hexValue? (c : Char) : Option Nat :=
  if c.isDigit then some (c.toNat - 48)
  else if 'a' ≤ c && c ≤ 'f' then some (c.toNat - 87)
  else if 'A' ≤ c && c ≤ 'F' then some (c.toNat - 55)
  else none

/-- The 16-bit unit that four hexadecimal digits write. -/
def unit? (a b c d : Char) : Option Nat := do
  return ((← hexValue? a) * 16 + (← hexValue? b)) * 256 + (← hexValue? c) * 16 + (← hexValue? d)

/-- The fault of a unit that lacks digits: the text ends if fewer than four bytes are left. -/
def shortUnit (rest : List Char) : Fault :=
  if (String.ofList rest).utf8ByteSize < 4 then .ended else .malformed

/-- A unit that opens a surrogate pair. -/
def isLead (unit : Nat) : Bool := 0xD800 ≤ unit && unit ≤ 0xDBFF

/-- A unit that closes a surrogate pair. -/
def isTrail (unit : Nat) : Bool := 0xDC00 ≤ unit && unit ≤ 0xDFFF

/-- The character of a surrogate pair. -/
def pairChar (lead trail : Nat) : Char :=
  Char.ofNat (0x10000 + (lead - 0xD800) * 0x400 + (trail - 0xDC00))

/-- The character that an escape of one letter stands for. -/
def escaped? : Char → Option Char
  | '"' => some '"'
  | '\\' => some '\\'
  | '/' => some '/'
  | 'b' => some '\x08'
  | 'f' => some '\x0c'
  | 'n' => some '\n'
  | 'r' => some '\r'
  | 't' => some '\t'
  | _ => none

/-- The fault of a leading surrogate without its trailing one. -/
def unpaired : List Char → Fault
  | [] => .ended
  | ['\\'] => .ended
  | '\\' :: 'u' :: rest => shortUnit rest
  | _ => .malformed

/-- One more character in front of a text. -/
def prepend (c : Char) : Except Fault (List Char × List Char) → Except Fault (List Char × List Char)
  | .ok (cs, s) => .ok (c :: cs, s)
  | .error fault => .error fault

/-- A text, from behind its opening quote to behind its closing one. -/
def readQuoted : Reader (List Char)
  | [] => .error .ended
  | '"' :: s => .ok ([], s)
  | '\\' :: 'u' :: a :: b :: c :: d :: s =>
    match unit? a b c d with
    | none => .error .malformed
    | some unit =>
      if isTrail unit then .error .malformed
      else if isLead unit then
        match s with
        | '\\' :: 'u' :: e :: f :: g :: h :: s =>
          match unit? e f g h with
          | none => .error .malformed
          | some trail =>
            if isTrail trail then prepend (pairChar unit trail) (readQuoted s)
            else .error .malformed
        | s => .error (unpaired s)
      else prepend (Char.ofNat unit) (readQuoted s)
  | '\\' :: 'u' :: s => .error (shortUnit s)
  | '\\' :: c :: s =>
    match escaped? c with
    | some e => prepend e (readQuoted s)
    | none => .error .malformed
  | ['\\'] => .error .ended
  | c :: s => if c.toNat < 0x20 then .error .malformed else prepend c (readQuoted s)

/-- What follows a text that nobody wants. -/
def skipQuoted : List Char → Except Fault (List Char)
  | [] => .error .ended
  | '"' :: s => .ok s
  | '\\' :: 'u' :: a :: b :: c :: d :: s =>
    if (unit? a b c d).isSome then skipQuoted s else .error .malformed
  | '\\' :: 'u' :: s => .error (shortUnit s)
  | '\\' :: c :: s => if (escaped? c).isSome then skipQuoted s else .error .malformed
  | ['\\'] => .error .ended
  | c :: s => if c.toNat < 0x20 then .error .malformed else skipQuoted s

/-! ### Arrays and objects -/

/-- Moves to the next item of an array, or to its closing bracket, where there is none. A comma
stands before every item but the first. -/
def nextItem (first : Bool) (s : List Char) : Except Fault (Option (List Char)) :=
  match skipSpace s with
  | [] => .error .ended
  | ']' :: _ => .ok none
  | c :: s =>
    if first then .ok (some (c :: s))
    else if c = ',' then
      match skipSpace s with
      | [] => .error .ended
      | ']' :: _ => .error .malformed
      | s => .ok (some s)
    else .error .malformed

/-- What follows an array whose items have been read. -/
def closeArray (s : List Char) : Except Fault (List Char) := expect [']'] (skipSpace s)

/-- Moves behind the opening quote of an object's next name, or to its closing brace, where there is
none. -/
def nextName (first : Bool) (s : List Char) : Except Fault (Option (List Char)) :=
  match skipSpace s with
  | [] => .error .ended
  | '\x7d' :: _ => .ok none
  | c :: s =>
    if first then if c = '"' then .ok (some s) else .error .malformed
    else if c = ',' then
      match skipSpace s with
      | [] => .error .ended
      | '"' :: s => .ok (some s)
      | _ => .error .malformed
    else .error .malformed

/-- What follows an object whose members have been read. -/
def closeObject (s : List Char) : Except Fault (List Char) := expect ['\x7d'] (skipSpace s)

/-- What follows the colon of a member. -/
def readColon (s : List Char) : Except Fault (List Char) := expect [':'] (skipSpace s)

/-! ### Values that nobody wants -/

mutual

/-- What follows a value that nobody wants. The fuel bounds the calls one inside the other: a value
of `n` characters needs `2 * n + 1`, since a bracket takes a call for the value that it opens and
another for what it holds, and a text that ends too early one more. -/
def skipValue : Nat → List Char → Except Fault (List Char)
  | 0, _ => .error .malformed
  | fuel + 1, s =>
    match skipSpace s with
    | [] => .error .ended
    | 'n' :: s => expect ['u', 'l', 'l'] s
    | 't' :: s => expect ['r', 'u', 'e'] s
    | 'f' :: s => expect ['a', 'l', 's', 'e'] s
    | '"' :: s => skipQuoted s
    | '[' :: s => skipItems fuel true s
    | '\x7b' :: s => skipMembers fuel true s
    | s =>
      match readWritten s with
      | .ok (_, s) => .ok s
      | .error _ => .error .malformed

/-- What follows the closing bracket of an array, from its next item on. -/
def skipItems : Nat → Bool → List Char → Except Fault (List Char)
  | 0, _, _ => .error .malformed
  | fuel + 1, first, s => do
    match ← nextItem first s with
    | none => closeArray s
    | some s => skipItems fuel false (← skipValue fuel s)

/-- What follows the closing brace of an object, from its next member on. -/
def skipMembers : Nat → Bool → List Char → Except Fault (List Char)
  | 0, _, _ => .error .malformed
  | fuel + 1, first, s => do
    match ← nextName first s with
    | none => closeObject s
    | some s => skipMembers fuel false (← skipValue fuel (← readColon (← skipQuoted s)))

end

/-- What follows a value that nobody wants. -/
def skip (s : List Char) : Except Fault (List Char) := skipValue (2 * s.length + 1) s

/-! ### Values that are wanted -/

/-- The fault of a value of another kind than the wanted one. -/
def wrongKind (wanted : String) (s : List Char) : Fault :=
  let fault (found : Found) : Fault := .mismatch (.wrongKind found wanted)
  let after (found : Found) : Except Fault (List Char) → Fault
    | .ok _ => fault found
    | .error e => e
  match s with
  | [] => .ended
  | 'n' :: s => after .null (expect ['u', 'l', 'l'] s)
  | 't' :: s => after (.boolean true) (expect ['r', 'u', 'e'] s)
  | 'f' :: s => after (.boolean false) (expect ['a', 'l', 's', 'e'] s)
  | '[' :: _ => fault .array
  | '\x7b' :: _ => fault .object
  | '"' :: s =>
    match readQuoted s with
    | .ok (cs, _) => fault (.text (String.ofList cs))
    | .error e => e
  | c :: _ =>
    if c = '-' || c.isDigit then
      match readWritten s with
      | .error e => e
      | .ok (w, _) =>
        match w.integer?, w.nearest? with
        | some n, _ => fault (.integer n)
        | none, some v => fault (.number v)
        | none, none => .malformed
    else .malformed

/-- A number; one beyond the largest of the format is malformed. -/
def readNumber : Reader Binary64 := fun s =>
  let s := skipSpace s
  match s with
  | [] => .error .ended
  | c :: _ =>
    if c = '-' || c.isDigit then do
      let (w, s) ← readWritten s
      match w.nearest? with
      | some v => return (v, s)
      | none => .error .malformed
    else .error (wrongKind "f64" s)

/-- A text of exactly one character. -/
def readCharacter : Reader Char := fun s =>
  match skipSpace s with
  | '"' :: s => do
    let (cs, s) ← readQuoted s
    match cs with
    | [c] => return (c, s)
    | _ => .error (.mismatch (.wrongText (String.ofList cs) "a character"))
  | s => .error (wrongKind "a character" s)

/-- `null` or a value. -/
def readOptional {α : Type} (value : Reader α) : Reader (Option α) := fun s =>
  match skipSpace s with
  | 'n' :: s => do return (none, ← expect ['u', 'l', 'l'] s)
  | s => do
    let (a, s) ← value s
    return (some a, s)

/-- The items of an array up to its closing bracket, each read with its index. The fuel bounds
their number. -/
def readItems {α : Type} (item : Nat → Reader α) : Nat → Nat → Reader (List α)
  | 0, _, _ => .error .malformed
  | fuel + 1, index, s => do
    match ← nextItem (index == 0) s with
    | none => return ([], ← closeArray s)
    | some s =>
      let (a, s) ← item index s
      let (as, s) ← readItems item fuel (index + 1) s
      return (a :: as, s)

/-- An array. A text of `n` characters holds fewer than `n` items. -/
def readArray {α : Type} (wanted : String) (item : Nat → Reader α) : Reader (List α) := fun s =>
  match skipSpace s with
  | '[' :: s => readItems item (s.length + 1) 0 s
  | s => .error (wrongKind wanted s)

/-- What an array of at most `capacity` items is called in messages. -/
def boundedTitle (capacity : Nat) : String := s!"an array with no more than {capacity} items"

/-- The refusal of an array with more than `capacity` items. -/
def tooManyItems (capacity : Nat) : Fault :=
  .mismatch (.wrongLength (capacity + 1) (boundedTitle capacity))

/-- The item at place `index`. The first one too many is read before it is refused. -/
def readWithin {α : Type} (capacity : Nat) (item : Reader α) (index : Nat) : Reader α := fun s => do
  let (a, s) ← item s
  if index < capacity then return (a, s) else .error (tooManyItems capacity)

/-- An array of at most `capacity` items. -/
def readBounded {α : Type} (capacity : Nat) (item : Reader α) :
    Reader { items : List α // items.length ≤ capacity } := fun s => do
  let (items, s) ← readArray (boundedTitle capacity) (readWithin capacity item) s
  if h : items.length ≤ capacity then return (⟨items, h⟩, s) else .error (tooManyItems capacity)

/-- A whole document: a value with nothing behind it. -/
def readDocument {α : Type} (value : Reader α) (text : String) : Except Fault α := do
  let (a, s) ← value text.toList
  if (skipSpace s).isEmpty then return a else .error .malformed

end PieceSequencer.Json
