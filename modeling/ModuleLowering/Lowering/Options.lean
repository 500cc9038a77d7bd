namespace ModuleLowering

inductive Pass
  | imports
  | addModuleExports
  | jsx
  | typescript
  | flow
  deriving DecidableEq

namespace Pass

def all : List Pass := [imports, addModuleExports, jsx, typescript, flow]

def token : Pass → String
  | imports => "imports"
  | addModuleExports => "add-module-exports"
  | jsx => "jsx"
  | typescript => "typescript"
  | flow => "flow"

def ofToken (token : String) : Except String Pass :=
  match all.find? (·.token = token) with
  | some pass => .ok pass
  | none => .error token

def unknownMessage (token : String) : String :=
  "unknown transform '" ++ token ++ "' (expected one of: " ++ ", ".intercalate (all.map Pass.token) ++ ")"

end Pass

structure Options where
  imports : Bool
  addModuleExports : Bool
  deriving DecidableEq

namespace Options

def lowering : Options := ⟨true, false⟩

def ofPasses (passes : List Pass) : Options :=
  ⟨passes.contains .imports, passes.contains .addModuleExports⟩

def ofTokens (tokens : List String) : Except String Options := (tokens.mapM Pass.ofToken).map ofPasses

end Options

end ModuleLowering
