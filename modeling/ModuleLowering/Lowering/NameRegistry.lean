import ModuleLowering.Text.CharClass
import ModuleLowering.Token.Basic

/-!
Fresh names: a registry of the names that are taken, seeded with every identifier of a source,
property names and keys included.
-/

namespace ModuleLowering

open Text

structure NameRegistry where
  taken : List String

namespace NameRegistry

def ofStream (s : Stream) : NameRegistry :=
  let names := (s.tokens.toList.filter (·.kind = .identifier)).map (·.text)
  ⟨names.foldl (fun taken name => taken.insert name) []⟩

def contains (r : NameRegistry) (name : String) : Bool := r.taken.contains name

def size (r : NameRegistry) : Nat := r.taken.length

/-- The name itself if it is free, or else the first free one of `base2`, `base3`, … -/
def fresh (r : NameRegistry) (base : String) : String :=
  if r.contains base then
    (((List.range (r.size + 1)).map fun n => base ++ toString (n + 2)).find? (!r.contains ·)).getD base
  else base

def allocate (r : NameRegistry) (base : String) : String × NameRegistry :=
  (r.fresh base, ⟨r.taken.insert (r.fresh base)⟩)

end NameRegistry

def variableBase (specifier : String) : String :=
  "_" ++ String.ofList (specifier.toList.filter isIdentifierPart)

structure HelperNames where
  wildcard : String
  default : String
  deriving DecidableEq

def HelperNames.allocate (r : NameRegistry) : HelperNames × NameRegistry :=
  let (wildcard, r) := r.allocate "_interopRequireWildcard"
  let (default, r) := r.allocate "_interopRequireDefault"
  (⟨wildcard, default⟩, r)

end ModuleLowering
