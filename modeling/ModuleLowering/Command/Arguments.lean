import ModuleLowering.Text.Split

/-!
The arguments of a command line. Inputs and options mix freely up to `--`, after which everything is
an input. An option's value is looked at only when the next thing begins, so an unknown option wins
over a bad value right before it.
-/

namespace ModuleLowering.Command

open Text

inductive Refusal
  | unknownOption
  | missingInput
  | missingValue
  | unexpectedValue
  | repeatedOption
  | helpAsked
  | versionAsked
  deriving DecidableEq

structure Arguments where
  inputs : List String
  transforms : Option (List String)
  settings : Option String
  outDir : Option String
  check : Bool
  deriving DecidableEq

namespace Arguments

def empty : Arguments := ⟨[], none, none, none, false⟩

inductive Field
  | transforms
  | settings
  | outDir
  deriving DecidableEq

inductive Switch
  | check
  | help
  | version
  deriving DecidableEq

def long? : String → Option (Field ⊕ Switch)
  | "transforms" => some (.inl .transforms)
  | "config" => some (.inl .settings)
  | "out-dir" | "outDir" => some (.inl .outDir)
  | "check" => some (.inr .check)
  | "help" => some (.inr .help)
  | "version" => some (.inr .version)
  | _ => none

def short? : Char → Option (Field ⊕ Switch)
  | 'c' => some (.inl .settings)
  | 'o' => some (.inl .outDir)
  | 'h' => some (.inr .help)
  | 'V' => some (.inr .version)
  | _ => none

def setPath (current : Option String) (path : String) : Except Refusal (Option String) :=
  if current.isSome then .error .repeatedOption
  else if path = "" then .error .missingValue
  else .ok (some path)

def set (a : Arguments) (value : String) : Field → Except Refusal Arguments
  | .transforms => .ok { a with transforms := some (a.transforms.getD [] ++ splitText ',' value) }
  | .settings => (setPath a.settings value).map fun path => { a with settings := path }
  | .outDir => (setPath a.outDir value).map fun path => { a with outDir := path }

def switch (a : Arguments) : Switch → Except Refusal Arguments
  | .check => if a.check then .error .repeatedOption else .ok { a with check := true }
  | .help => .error .helpAsked
  | .version => .error .versionAsked

def addInputs (a : Arguments) (paths : List String) : Except Refusal Arguments :=
  if "" ∈ paths then .error .missingValue else .ok { a with inputs := a.inputs ++ paths }

inductive Pending
  | inputs (paths : List String)
  | field (f : Field) (value : Option String)

structure Reader where
  taken : Arguments
  pending : Pending
  inputsOnly : Bool

namespace Reader

def start : Reader := ⟨.empty, .inputs [], false⟩

def settle (r : Reader) : Except Refusal Arguments :=
  match r.pending with
  | .inputs paths => r.taken.addInputs paths
  | .field _ none => .error .missingValue
  | .field f (some value) => r.taken.set value f

def addInput (r : Reader) (path : String) : Except Refusal Reader :=
  match r.pending with
  | .inputs paths => .ok { r with pending := .inputs (paths ++ [path]) }
  | _ => r.settle.map fun a => { r with taken := a, pending := .inputs [path] }

def addOption (r : Reader) (attached : Option String) : Field ⊕ Switch → Except Refusal Reader
  | .inl f => do
    let a ← r.settle
    match attached with
    | none => return { r with taken := a, pending := .field f none }
    | some value => return { r with taken := ← a.set value f, pending := .inputs [] }
  | .inr s => do
    if attached.isSome then throw .unexpectedValue
    let a ← r.settle
    return { r with taken := ← a.switch s, pending := .inputs [] }

def addLong (r : Reader) (text : List Char) : Except Refusal Reader :=
  let name := text.takeWhile (· != '=')
  match long? (String.ofList name) with
  | none => .error .unknownOption
  | some o =>
    let attached := match text.drop name.length with
      | [] => none
      | _ :: value => some (String.ofList value)
    r.addOption attached o

/-- An option with one dash, whose value may follow at once or after an equals sign. What follows a
switch does not matter, since none of them lets the run go on. -/
def addShort (r : Reader) (c : Char) (text : List Char) : Except Refusal Reader :=
  match short? c with
  | none => .error .unknownOption
  | some (.inr s) => r.addOption none (.inr s)
  | some (.inl f) =>
    let attached := match text with
      | [] => none
      | '=' :: value => some (String.ofList value)
      | value => some (String.ofList value)
    r.addOption attached (.inl f)

def step (r : Reader) (arg : String) : Except Refusal Reader :=
  if r.inputsOnly then r.addInput arg
  else
    match arg.toList with
    | ['-', '-'] => .ok { r with inputsOnly := true }
    | '-' :: '-' :: text => r.addLong text
    | '-' :: c :: text => r.addShort c text
    | _ =>
      match r.pending with
      | .field f none => .ok { r with pending := .field f (some arg) }
      | _ => r.addInput arg

end Reader

def parse (args : List String) : Except Refusal Arguments := do
  let r ← args.foldlM Reader.step .start
  let a ← r.settle
  if a.inputs = [] then throw .missingInput
  return a

end Arguments

end ModuleLowering.Command
