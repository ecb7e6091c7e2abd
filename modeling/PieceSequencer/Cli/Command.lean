import PieceSequencer.Bag.Basic
import PieceSequencer.Catalogue.Document
import PieceSequencer.Cli.Config
import PieceSequencer.Cli.KeyLine
import PieceSequencer.Cli.Report
import PieceSequencer.Pattern.Document

/-! # Running a command

What a command prints for its settings: the keys of the first pieces, a report on them, the tokens
of the pattern or its tree. It appends what it prints to the buffer it is given. Files are looked up
in a function, and documents are read and written by a codec, so a run is a plain value: the lines
it traces, the buffer, and whether it was refused. -/

namespace PieceSequencer

/-- How to call the program. -/
def usage : String :=
  "usage: bag-pattern [--pattern P] [--count N] [--seed S] [--catalogue FILE]\n" ++
  "                   [--json | --tokens | --tree] [--trace] [--no-color]\n" ++
  "\n" ++
  "Prints the next N pieces a Bag-Pattern produces.\n" ++
  "  --pattern P       pattern to run (default \"[@]~\")\n" ++
  "  --count N         number of pieces to show (default 14, at most 100000)\n" ++
  "  --seed S          shuffle seed (default 1)\n" ++
  "  --catalogue FILE  JSON array of piece definitions (default: standard T I O L J S Z)\n" ++
  "  --json            print a JSON report instead of keys\n" ++
  "  --tokens          print the token stream and exit\n" ++
  "  --tree            print the parsed pattern tree and exit\n" ++
  "  --trace           log generator progress to stderr\n" ++
  "  --no-color        never colour piece keys\n"

/-- What a command leaves behind. -/
structure Outcome where
  trace : List String
  /-- The buffer that the command was given, with what it appended. -/
  buffer : ByteArray
  result : Except CommandError Unit

/-- The text in the buffer, unless the command was refused. -/
def Outcome.output (outcome : Outcome) : Except CommandError String :=
  match outcome.result with
  | .ok () => .ok ((String.fromUTF8? outcome.buffer).getD "")
  | .error e => .error e

namespace Config

/-- The catalogue of the settings: the one of the given file, or the standard one. -/
def loadCatalogue (config : Config) (files : String → Except FileError String)
    (codec : Json.Codec) : Except CommandError Catalogue :=
  match config.cataloguePath with
  | none => .ok .standard
  | some path =>
    match files path with
    | .error e => .error (.unreadableCatalogue path e)
    | .ok text =>
      match Catalogue.ofText text codec with
      | .error e => .error (.invalidCatalogue path e)
      | .ok catalogue => .ok catalogue

/-- Prints the token list of the pattern. -/
def printTokens (config : Config) (codec : Json.Codec) (catalogue : Catalogue) (out : ByteArray) :
    Outcome :=
  match Token.scan catalogue.keys config.pattern with
  | .error e => ⟨[], out, .error (.untokenizable config.pattern e)⟩
  | .ok tokens =>
    ⟨[], out ++ (codec.compact (.array (tokens.map Token.toJson)) ++ "\n").toUTF8, .ok ()⟩

/-- Prints the tree of the pattern. -/
def printTree (config : Config) (codec : Json.Codec) (catalogue : Catalogue) (out : ByteArray) :
    Outcome :=
  match Pattern.ofText catalogue.keys config.pattern with
  | .error e => ⟨[], out, .error (.unparsable config.pattern e)⟩
  | .ok pattern => ⟨[], out ++ (codec.indented pattern.toJson ++ "\n").toUTF8, .ok ()⟩

/-- The report on the pieces that have been looked at. -/
def report (config : Config) (bag : Bag Congruential) (keys : List Char) : Report where
  pattern := config.pattern
  seed := config.seed
  length := bag.pattern.length?
  pieces := keys.map (·.toString)
  exhausted := bag.isDrained

/-- The text of the pieces that have been looked at. -/
def windowText (config : Config) (colored : Bool) (codec : Json.Codec) (bag : Bag Congruential)
    (keys : List Char) : String :=
  if config.output = .report then (config.report bag keys).text codec else keyLine colored keys

/-- What is traced about a bag. -/
def traceStart (config : Config) (bag : Bag Congruential) : String :=
  s!"[Bag] pattern {bag.pattern.text} over {bag.keys.length} key(s), seed {config.seed}"

/-- What is traced about a sequence that ended before the last piece asked for. -/
def traceEnd (count : Nat) : String := s!"[Bag] sequence exhausted after {count} piece(s)"

/-- Prints the first pieces of the pattern under the seed. -/
def printPieces (config : Config) (colored : Bool) (codec : Json.Codec) (catalogue : Catalogue)
    (out : ByteArray) : Outcome :=
  match Bag.seeded catalogue config.pattern config.seed with
  | .error failure => ⟨[], out, .error (.unbuildable config.pattern failure.error)⟩
  | .ok bag =>
    let started := if config.trace then [config.traceStart bag] else []
    match bag.peekKeys config.count with
    | (_, .error e) => ⟨started, out, .error (.interrupted e)⟩
    | (bag, .ok keys) =>
      let ended :=
        if config.trace && keys.length < config.count then [traceEnd keys.length] else []
      ⟨started ++ ended, out ++ (config.windowText colored codec bag keys).toUTF8, .ok ()⟩

/-- Runs a command, which appends what it prints to `out`. -/
def run (config : Config) (files : String → Except FileError String) (colored : Bool)
    (out : ByteArray := .empty) (codec : Json.Codec := Json.codec) : Outcome :=
  match checkCount config.count with
  | .error e => ⟨[], out, .error e⟩
  | .ok _ =>
    match config.loadCatalogue files codec with
    | .error e => ⟨[], out, .error e⟩
    | .ok catalogue =>
      match config.output with
      | .tokens => config.printTokens codec catalogue out
      | .tree => config.printTree codec catalogue out
      | _ => config.printPieces colored codec catalogue out

end Config

/-! ### The whole program -/

/-- The text of a cause behind a refusal. -/
def Cause.text : Cause → String
  | .message text => text
  | .document (.mismatch cause) => cause.message
  | .document .ended => "the document ends too early"
  | .document .malformed => "the document is malformed"

/-- A refusal as it is shown to the user. -/
def CommandError.report (error : CommandError) : String :=
  "Error: " ++ error.message ++
    match error.cause with
    | some cause => "\n\nCaused by:\n    " ++ cause.text ++ "\n"
    | none => "\n"

/-- What the program leaves behind: its exit code and its two output streams. -/
structure ProgramResult where
  code : UInt32
  stdout : String
  stderr : String
  deriving DecidableEq, Repr

namespace ProgramResult

/-- A program that ends with a refusal behind some traced text. -/
def refused (traced : String) (error : CommandError) : ProgramResult :=
  ⟨1, "", traced ++ error.report⟩

/-- The result of a command. -/
def ofOutcome (outcome : Outcome) : ProgramResult :=
  let traced := outcome.trace.foldl (fun text line => text ++ line ++ "\n") ""
  match outcome.output with
  | .ok text => ⟨0, text, traced⟩
  | .error e => refused traced e

/-- The result of a program run, for its settings or what is wrong with them. Colours need a
terminal. -/
def ofConfig (config : Except CommandError Config) (files : String → Except FileError String)
    (terminal : Bool) : ProgramResult :=
  match config with
  | .error e => refused "" e
  | .ok config =>
    if config.help then ⟨0, usage, ""⟩
    else ofOutcome (config.run files (!config.noColor && terminal))

end ProgramResult

end PieceSequencer
