import PieceSequencer.Bag.Error
import PieceSequencer.Json.Fault

/-! # Faults of the command line

Why a command is refused: a bad argument, a catalogue that cannot be read, or a pattern that
cannot be used. Some faults have a cause of their own. -/

namespace PieceSequencer

/-- The most pieces that a command shows, since all of them are resolved before the first is
printed. -/
def maxCount : Nat := 100000

/-- The flags that take a value. -/
inductive ValueFlag where
  | pattern
  | count
  | seed
  | catalogue
  deriving DecidableEq, Repr

/-- Why a file cannot be read. -/
inductive FileError where
  | notFound
  | other (message : String)
  deriving DecidableEq, Repr

/-- Why a command is refused. -/
inductive CommandError where
  | invalidCount (value : String)
  | invalidSeed (value : String)
  | missingValue (flag : ValueFlag)
  | unknownArgument (argument : String)
  | countTooLarge (count : Nat)
  | unreadableCatalogue (path : String) (cause : FileError)
  | invalidCatalogue (path : String) (cause : Json.Fault)
  | untokenizable (pattern : String) (cause : ScanError)
  | unparsable (pattern : String) (cause : PatternError)
  | unbuildable (pattern : String) (cause : BuildError)
  | interrupted (error : BagError)
  deriving DecidableEq, Repr

/-- What lies behind a refusal: a fault with a message, or a document that cannot be read. -/
inductive Cause where
  | message (text : String)
  | document (fault : Json.Fault)
  deriving DecidableEq, Repr

/-! ### Messages -/

/-- A flag as it is written. -/
def ValueFlag.text : ValueFlag → String
  | .pattern => "--pattern"
  | .count => "--count"
  | .seed => "--seed"
  | .catalogue => "--catalogue"

def FileError.message : FileError → String
  | .notFound => "No such file or directory (os error 2)"
  | .other message => message

/-- What a command says about itself in front of every refusal. -/
def CommandError.reason : CommandError → String
  | .invalidCount value => s!"invalid --count value: {value}"
  | .invalidSeed value => s!"invalid --seed value: {value}"
  | .missingValue flag => s!"missing value for {flag.text}"
  | .unknownArgument argument => s!"unknown argument: {argument}"
  | .countTooLarge count => s!"--count {count} exceeds the limit of {maxCount}"
  | .unreadableCatalogue path _ => s!"cannot read catalogue {path}"
  | .invalidCatalogue path _ => s!"invalid catalogue {path}"
  | .untokenizable pattern _ => s!"cannot tokenize {Text.quote pattern}"
  | .unparsable pattern _ => s!"cannot parse {Text.quote pattern}"
  | .unbuildable pattern _ => s!"cannot build bag for {Text.quote pattern}"
  | .interrupted error => error.message

/-- The message of a refusal. A fault of the running sequence speaks for itself. -/
def CommandError.message : CommandError → String
  | .interrupted error => error.message
  | error => "bag-pattern: " ++ error.reason

/-- What lies behind a refusal, if anything does. -/
def CommandError.cause : CommandError → Option Cause
  | .unreadableCatalogue _ cause => some (.message cause.message)
  | .invalidCatalogue _ cause => some (.document cause)
  | .untokenizable _ cause => some (.message cause.message)
  | .unparsable _ cause => some (.message cause.message)
  | .unbuildable _ cause => some (.message cause.message)
  | _ => none

end PieceSequencer
