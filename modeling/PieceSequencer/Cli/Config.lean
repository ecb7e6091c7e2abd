import PieceSequencer.Catalogue.Standard
import PieceSequencer.Cli.Error
import PieceSequencer.Text.Blank
import PieceSequencer.Text.Numeral

/-! # Settings

The settings of a command come from the environment first; flags override them from left to
right. A bad value in the environment counts as none, a bad flag refuses the command. -/

namespace PieceSequencer

/-- What a command prints. -/
inductive OutputMode where
  | keys
  | report
  | tokens
  | tree
  deriving DecidableEq, Repr

/-- The settings of a command. -/
structure Config where
  pattern : String
  count : Nat
  seed : UInt32
  cataloguePath : Option String
  output : OutputMode
  trace : Bool
  noColor : Bool
  help : Bool
  deriving DecidableEq, Repr

/-- The flags that stand alone. -/
inductive Switch where
  | output (mode : OutputMode)
  | trace
  | noColor
  | help
  deriving DecidableEq, Repr

/-- One argument of a command. -/
inductive Flag where
  | valued (flag : ValueFlag)
  | switch (switch : Switch)
  deriving DecidableEq, Repr

/-- The flag that an argument writes. -/
def Flag.ofArgument? : String → Option Flag
  | "--pattern" => some (.valued .pattern)
  | "--count" => some (.valued .count)
  | "--seed" => some (.valued .seed)
  | "--catalogue" => some (.valued .catalogue)
  | "--json" => some (.switch (.output .report))
  | "--tokens" => some (.switch (.output .tokens))
  | "--tree" => some (.switch (.output .tree))
  | "--trace" => some (.switch .trace)
  | "--no-color" => some (.switch .noColor)
  | "-h" => some (.switch .help)
  | "--help" => some (.switch .help)
  | _ => none

namespace Config

/-- The settings without environment and flags. -/
def standard : Config where
  pattern := standardPattern
  count := 14
  seed := 1
  cataloguePath := none
  output := .keys
  trace := false
  noColor := false
  help := false

/-! ### Values -/

/-- A piece count: a number of 64 bits. -/
def readCount? (text : String) : Option Nat := Numeral.read? UInt64.size text.toList

/-- A seed: a number of 32 bits. -/
def readSeed? (text : String) : Option UInt32 :=
  (Numeral.read? UInt32.size text.toList).map UInt32.ofNat

/-- An ASCII letter in lower case; other characters stay. -/
def lowerLetter (c : Char) : Char :=
  if 'A' ≤ c && c ≤ 'Z' then Char.ofNat (c.toNat + 32) else c

/-- Whether a value turns a setting on: `1`, or `true` in letters of any case. -/
def isTruthy (text : String) : Bool :=
  text = "1" || text.toList.map lowerLetter = ['t', 'r', 'u', 'e']

/-- A value that is not blank, without the blank characters around it. -/
def nonBlank? (text : String) : Option String :=
  let trimmed := Text.trim text
  if trimmed.isEmpty then none else some trimmed

/-- Whether a count is small enough to be shown. -/
def checkCount (count : Nat) : Except CommandError Nat :=
  if maxCount < count then .error (.countTooLarge count) else .ok count

theorem checkCount_of_le {count : Nat} (h : count ≤ maxCount) : checkCount count = .ok count :=
  if_neg (Nat.not_lt.mpr h)

theorem checkCount_of_lt {count : Nat} (h : maxCount < count) :
    checkCount count = .error (.countTooLarge count) :=
  if_pos h

/-! ### Environment and flags -/

/-- The settings of an environment. -/
def ofEnvironment (setting : String → Option String) : Config :=
  { standard with
    pattern := ((setting "BAG_PATTERN").bind nonBlank?).getD standard.pattern
    count := ((setting "BAG_COUNT").bind (readCount? ∘ Text.trim)).getD standard.count
    seed := ((setting "BAG_SEED").bind (readSeed? ∘ Text.trim)).getD standard.seed
    cataloguePath := (setting "BAG_CATALOGUE").bind nonBlank?
    trace := ((setting "BAG_TRACE").map isTruthy).getD false
    noColor := ((setting "NO_COLOR").map (!·.isEmpty)).getD false }

/-- Sets the setting of a flag with a value. -/
def setValue (config : Config) (flag : ValueFlag) (value : String) : Except CommandError Config :=
  match flag with
  | .pattern => .ok { config with pattern := value }
  | .count =>
    match readCount? value with
    | none => .error (.invalidCount value)
    | some count => (checkCount count).map fun count => { config with count := count }
  | .seed =>
    match readSeed? value with
    | none => .error (.invalidSeed value)
    | some seed => .ok { config with seed := seed }
  | .catalogue => .ok { config with cataloguePath := some value }

/-- Turns on the setting of a flag that stands alone. -/
def turnOn (config : Config) : Switch → Config
  | .output mode => { config with output := mode }
  | .trace => { config with trace := true }
  | .noColor => { config with noColor := true }
  | .help => { config with help := true }

/-- Overrides settings by flags, from left to right up to the first fault. -/
def applyArguments (config : Config) : List String → Except CommandError Config
  | [] => .ok config
  | argument :: rest =>
    match Flag.ofArgument? argument with
    | none => .error (.unknownArgument argument)
    | some (.switch switch) => applyArguments (config.turnOn switch) rest
    | some (.valued flag) =>
      match rest with
      | [] => .error (.missingValue flag)
      | value :: rest =>
        match config.setValue flag value with
        | .error e => .error e
        | .ok config => applyArguments config rest

end Config

end PieceSequencer
