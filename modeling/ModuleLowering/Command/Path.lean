import ModuleLowering.Text.Split

namespace ModuleLowering.Command.Path

open Text

def segments (path : String) : List String := splitText '/' path

/-- Whether a path can name anything at all: a name has at most 255 bytes, a path fewer than 4096. -/
def isUsable (path : String) : Bool :=
  path ≠ "" ∧ '\x00' ∉ path.toList ∧ path.utf8ByteSize < 4096 ∧
    (segments path).all (·.utf8ByteSize ≤ 255)

def ofSegments : List String → String
  | [""] => "/"
  | segments => "/".intercalate segments

def join (base rest : String) : String :=
  if base = "" ∨ base.toList.getLast? = some '/' then base ++ rest else base ++ "/" ++ rest

def fileName (path : String) : String := (segments path).getLastD ""

def isIdle (segment : String) : Bool := segment = "" ∨ segment = "."

/-- The path without its last segment and without the idle ones before that. The first segment stays, as
it tells the root and the current folder apart from other places. -/
def parent (path : String) : String :=
  match (segments path).dropLast with
  | [] => ""
  | first :: rest => ofSegments (first :: (rest.reverse.dropWhile isIdle).reverse)

def extension? (name : String) : Option String :=
  match (splitText '.' name).reverse with
  | [] | [_] | [_, ""] => none
  | extension :: _ => some extension

def isSource (name : String) : Bool :=
  match extension? name with
  | some extension => ["js", "jsx", "mjs"].contains extension
  | none => false

end ModuleLowering.Command.Path
