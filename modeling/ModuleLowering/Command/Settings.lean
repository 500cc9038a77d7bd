import ModuleLowering.Command.Arguments
import ModuleLowering.Command.Fault
import ModuleLowering.Json.Record
import ModuleLowering.Lowering.Options

namespace ModuleLowering.Command

open Json

structure Settings where
  transforms : Option (List String)
  outDir : Option String
  deriving DecidableEq

namespace Settings

def empty : Settings := ⟨none, none⟩

def ofJson? (v : Value) : Option Settings := do
  match ← v.fields? ["transforms", "outDir"] true with
  | [transforms, outDir] =>
    return ⟨← (transforms.getD .null).nullable? (Value.list? Value.text?),
      ← (outDir.getD .null).nullable? Value.text?⟩
  | _ => none

def parse? (text : String) : Option Settings := do ofJson? (← Value.parse? text)

end Settings

structure Task where
  options : Options
  outDir : Option String
  check : Bool
  deriving DecidableEq

/-- The command line wins over the settings; lowering is what is done if neither names a pass. -/
def Task.of (a : Arguments) (s : Settings) : Except Fault Task :=
  match Options.ofTokens ((a.transforms <|> s.transforms).getD [Pass.imports.token]) with
  | .error token => .error (.unknownPass token)
  | .ok options => .ok ⟨options, a.outDir <|> s.outDir, a.check⟩

end ModuleLowering.Command
