import ModuleLowering.Lowering.NameRegistry
import ModuleLowering.SourceModule.Basic

/-!
Requirements: what a module needs of each other module. All import statements and re-exports of one
specifier share one requirement, which takes effect at the first of them.
-/

namespace ModuleLowering

open Text

structure Requirement where
  specifier : String
  literal : String
  first : Nat
  holder : Option String
  needsDefault : Bool
  /-- The variable that the default export is read through, unless a namespace serves for that. -/
  defaultHolder : Option String
  namespaces : List String
  named : List ModuleName
  deriving DecidableEq

namespace Requirement

def new (specifier : Specifier) (first : Nat) : Requirement :=
  ⟨specifier.value, specifier.raw, first, none, false, none, [], []⟩

def isSideEffectOnly (r : Requirement) : Bool :=
  !r.needsDefault && r.namespaces.isEmpty && r.named.isEmpty

def needsDefaultVariable (r : Requirement) : Bool := r.needsDefault && r.namespaces.isEmpty

def needsInterop (r : Requirement) : Bool := r.needsDefaultVariable || !r.namespaces.isEmpty

def addName (r : Requirement) (name : ModuleName) : Requirement :=
  if name.isDefault then { r with needsDefault := true }
  else if name ∈ r.named then r
  else { r with named := r.named ++ [name] }

def addClause (r : Requirement) (c : ImportClause) : Requirement :=
  (c.named.map (·.imported)).foldl addName
    { r with
      needsDefault := r.needsDefault || c.defaultName.isSome
      namespaces := r.namespaces ++ c.namespaceName.toList }

end Requirement

structure Requirements where
  records : List Requirement
  helpers : Option HelperNames
  deriving DecidableEq

namespace Requirements

def empty : Requirements := ⟨[], none⟩

def find? (rs : Requirements) (specifier : String) : Option Requirement :=
  rs.records.find? (·.specifier = specifier)

def update (rs : Requirements) (specifier : Specifier) (first : Nat) (f : Requirement → Requirement) :
    Requirements :=
  if (rs.find? specifier.value).isSome then
    { rs with records := rs.records.map fun r => if r.specifier = specifier.value then f r else r }
  else { rs with records := rs.records ++ [f (.new specifier first)] }

def addItem (rs : Requirements) : ModuleItem → Requirements
  | .imports st => rs.update st.specifier st.span.start (·.addClause st.clause)
  | .exports (.namesFrom span specifiers specifier) =>
    rs.update specifier span.start fun r => (specifiers.map (·.source)).foldl Requirement.addName r
  | .exports _ => rs

def ofItems (items : List ModuleItem) : Requirements := items.foldl addItem empty

def needsInterop (rs : Requirements) : Bool := rs.records.any (·.needsInterop)

def nameRecord (r : Requirement) (names : NameRegistry) : Requirement × NameRegistry :=
  if r.isSideEffectOnly then (r, names)
  else
    let (holder, names) := names.allocate (variableBase r.specifier)
    if r.needsDefaultVariable then
      let (default, names) := names.allocate holder
      ({ r with holder := some holder, defaultHolder := some default }, names)
    else ({ r with holder := some holder }, names)

def nameRecords : List Requirement → NameRegistry → List Requirement × NameRegistry
  | [], names => ([], names)
  | r :: rs, names =>
    let (r, names) := nameRecord r names
    let (rs, names) := nameRecords rs names
    (r :: rs, names)

def allocate (rs : Requirements) (names : NameRegistry) : Requirements × NameRegistry :=
  if rs.needsInterop then
    let (helpers, names) := HelperNames.allocate names
    let (records, names) := nameRecords rs.records names
    (⟨records, some helpers⟩, names)
  else
    let (records, names) := nameRecords rs.records names
    (⟨records, rs.helpers⟩, names)

end Requirements

end ModuleLowering
