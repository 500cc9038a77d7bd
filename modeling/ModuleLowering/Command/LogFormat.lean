namespace ModuleLowering.Command

inductive LogFormat
  | text
  | tree
  | json
  deriving DecidableEq

namespace LogFormat

/-- The form of this name in any case, plain text for every other name. Only ASCII letters can differ in
case: no other character has one of the letters of these names as its lower case. -/
def ofName (name : String) : LogFormat :=
  match String.ofList (name.toList.map Char.toLower) with
  | "tree" => tree
  | "json" => json
  | _ => text

end LogFormat

end ModuleLowering.Command
