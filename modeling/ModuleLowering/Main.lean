import ModuleLowering.Command.Run

namespace ModuleLowering.Command

def usage : String :=
  "Usage: module-lowering [OPTIONS] <INPUTS>...\n\n" ++
  "Lowers the import and export statements of files, and of the .js, .jsx and .mjs files in folders.\n\n" ++
  "Options:\n" ++
  "      --transforms <NAMES>  Passes, separated by commas [default: imports]\n" ++
  "  -c, --config <FILE>       Settings in JSON\n" ++
  "  -o, --out-dir <FOLDER>    Where to write the outputs instead of printing them\n" ++
  "      --check               Write nothing\n" ++
  "  -h, --help                Print help\n" ++
  "  -V, --version             Print version\n"

def version : String := "module-lowering 0.1.0\n"

def Refusal.message : Refusal → String
  | unknownOption => "unknown option"
  | missingInput => "no input given"
  | missingValue => "a value is missing or empty"
  | unexpectedValue => "an option was given a value that it does not take"
  | repeatedOption => "an option was given twice"
  | helpAsked => usage
  | versionAsked => version

def orFault {α : Type} (fault : Fault) (action : IO α) : IO (Except Fault α) := do
  match ← action.toBaseIO with
  | .ok a => return .ok a
  | .error _ => return .error fault

def loadInput (input : String) : IO (List SourceFile) := do
  let root ← IO.FS.realPath input
  if !(← root.isDir) then return [.ofFile input (← IO.FS.readBinFile root)]
  let found ← (← root.walkDir).toList.filterMapM fun file => do
    if ← file.isDir then return none
    let below := String.ofList (file.toString.toList.drop root.toString.length)
    return some ((Path.segments below).filter (!Path.isIdle ·), file)
  let sources := found.filter fun (names, _) => Path.isSource (names.getLastD "")
  let contents ← sources.mapM fun (names, file) => return (names, ← IO.FS.readBinFile file)
  return SourceFile.ofFolder input contents

def loadSettings (path : String) : IO (Except Fault Settings) := do
  match ← orFault (.settingsUnreadable path) (IO.FS.readFile path) with
  | .error fault => return .error fault
  | .ok text =>
    match Settings.parse? text with
    | none => return .error (.settingsMalformed path)
    | some s => return .ok s

def writeOutput (w : Write) : IO (Except Fault Unit) := do
  let folder := Path.parent w.target
  let made ← orFault (.folderNotCreated folder) do
    if folder ≠ "" then IO.FS.createDirAll folder
  match made with
  | .error fault => return .error fault
  | .ok _ => orFault (.fileNotWritten w.target) (IO.FS.writeFile w.target w.text)

def runOnDisk (a : Arguments) : ExceptT (Failure Fault) IO Outcome := do
  let settings ← match a.settings with
    | none => pure .empty
    | some path => orReject (loadSettings path)
  let task ← orReject (return Task.of a settings)
  let sources ← a.inputs.mapM fun input => orReject (orFault (.inputNotFound input) (loadInput input))
  let outcome ← ExceptT.mk (return Outcome.of task sources.flatten)
  for w in outcome.writes do orReject (writeOutput w)
  return outcome
where
  orReject {α : Type} (action : IO (Except Fault α)) : ExceptT (Failure Fault) IO α :=
    ExceptT.mk do return (← action).mapError .rejected

end ModuleLowering.Command

open ModuleLowering ModuleLowering.Command in
def main (args : List String) : IO UInt32 := do
  match Arguments.parse args with
  | .error .helpAsked => IO.print usage; return 0
  | .error .versionAsked => IO.print version; return 0
  | .error r => IO.eprintln s!"error: {r.message}"; return 2
  | .ok a =>
    match ← (runOnDisk a).run with
    | .error (.rejected fault) => IO.eprintln s!"Error: {fault.message}"; return 1
    | .error (.splitCharacter offset) =>
      IO.eprintln s!"Error: the escape at offset {offset} ends inside a character"
      return 101
    | .ok outcome =>
      IO.print outcome.stdout
      IO.eprint (outcome.stderr false)
      return outcome.exitCode
