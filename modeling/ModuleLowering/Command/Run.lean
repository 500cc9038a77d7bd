import ModuleLowering.Command.Report
import ModuleLowering.Command.Settings

namespace ModuleLowering.Command

structure Write where
  target : String
  text : String
  deriving DecidableEq

structure Outcome where
  files : Nat
  failures : List FileFailure
  writes : List Write
  stdout : String

namespace Outcome

def of (task : Task) (sources : List SourceFile) : Except (Failure Fault) Outcome := do
  let results ← sources.mapM fun f => (f.lower task.options).map (f, ·)
  let failures := results.filterMap fun (_, result) =>
    match result with
    | .error failure => some failure
    | .ok _ => none
  let outputs := results.filterMap fun (f, result) =>
    match result with
    | .error _ => none
    | .ok output => some (f, output)
  let files := sources.length
  if task.check then return ⟨files, failures, [], ""⟩
  match task.outDir with
  | none => return ⟨files, failures, [], String.join (outputs.map (·.2))⟩
  | some dir =>
    return ⟨files, failures, outputs.map fun (f, output) => ⟨Path.join dir f.relative, output⟩, ""⟩

def success (o : Outcome) : Bool := o.failures.isEmpty

def exitCode (o : Outcome) : UInt32 := if o.success then 0 else 1

def stderr (colour : Bool) (o : Outcome) : String :=
  if o.success then ""
  else Report.render colour (o.failures.map .of) ++ "\n" ++
    Report.summary colour o.files o.failures.length ++ "\n"

end Outcome

namespace FileTree

def write (t : FileTree) (w : Write) : Except Fault FileTree :=
  let folder := Path.parent w.target
  match t.makeFolder? folder with
  | none => .error (.folderNotCreated folder)
  | some t =>
    match t.locate? w.target with
    | none => .error (.fileNotWritten w.target)
    | some place =>
      if t.isFolder place then .error (.fileNotWritten w.target)
      else .ok (t.put place w.text.toUTF8)

def settings (t : FileTree) (path : String) : Except Fault Settings :=
  match (t.read? path).bind String.fromUTF8? with
  | none => .error (.settingsUnreadable path)
  | some text =>
    match Settings.parse? text with
    | none => .error (.settingsMalformed path)
    | some s => .ok s

def task (t : FileTree) (a : Arguments) : Except Fault Task := do
  let s ← match a.settings with
    | none => pure .empty
    | some path => t.settings path
  Task.of a s

end FileTree

def run (t : FileTree) (a : Arguments) : Except (Failure Fault) (Task × Outcome × FileTree) := do
  let task ← (t.task a).mapError .rejected
  let sources ← (t.collect a.inputs).mapError .rejected
  let outcome ← Outcome.of task sources
  let after ← (outcome.writes.foldlM FileTree.write t).mapError .rejected
  return (task, outcome, after)

end ModuleLowering.Command
