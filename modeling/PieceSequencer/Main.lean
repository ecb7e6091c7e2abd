import PieceSequencer.Cli.Command

/-! # The program

Reads the environment, the arguments and the catalogue file, and prints what the command leaves
behind. -/

namespace PieceSequencer

/-- The variables that hold settings. -/
def settingNames : List String :=
  ["BAG_PATTERN", "BAG_COUNT", "BAG_SEED", "BAG_CATALOGUE", "BAG_TRACE", "NO_COLOR"]

/-- The settings of the environment. -/
def readEnvironment : IO (String → Option String) := do
  let pairs ← settingNames.filterMapM fun name => do
    return (← IO.getEnv name).map (name, ·)
  return fun name => pairs.lookup name

/-- The text of a file. -/
def readCatalogueFile (path : String) : IO (Except FileError String) := do
  try
    return .ok (← IO.FS.readFile path)
  catch
    | .noFileOrDirectory .. => return .error .notFound
    | error => return .error (.other (toString error))

/-- The file that the settings name, if they name one. -/
def readFiles : Except CommandError Config → IO (String → Except FileError String)
  | .ok { cataloguePath := some path, .. } => do
    let text ← readCatalogueFile path
    return fun _ => text
  | _ => return fun _ => .error .notFound

end PieceSequencer

open PieceSequencer in
/-- Runs one command. -/
def main (arguments : List String) : IO UInt32 := do
  let config := (Config.ofEnvironment (← readEnvironment)).applyArguments arguments
  let files ← readFiles config
  let stdout ← IO.getStdout
  let result := ProgramResult.ofConfig config files (← stdout.isTty)
  (← IO.getStderr).putStr result.stderr
  stdout.putStr result.stdout
  stdout.flush
  return result.code
