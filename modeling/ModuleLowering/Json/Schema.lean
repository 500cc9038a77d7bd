import ModuleLowering.Json.Record
import ModuleLowering.Lowering.Options
import ModuleLowering.Text.Span

namespace ModuleLowering

open Json

def Text.Span.offsetBound : Nat := 0x100000000

def Text.Span.ofJson? (v : Value) : Option Span := do
  match ← v.fields? ["start", "end"] false with
  | [some start, some stop] => return ⟨← start.natural? offsetBound, ← stop.natural? offsetBound⟩
  | _ => none

def Pass.ofJson? : Value → Option Pass
  | .string (some token) => (ofToken token).toOption
  | .object [(some token, .null)] => (ofToken token).toOption
  | _ => none

def Options.ofJson? (v : Value) : Option Options := do
  match ← v.fields? ["imports", "add_module_exports"] false with
  | [some imports, some addModuleExports] => return ⟨← imports.bool?, ← addModuleExports.bool?⟩
  | _ => none

end ModuleLowering
