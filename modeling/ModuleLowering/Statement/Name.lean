import ModuleLowering.Statement.StringValue
import ModuleLowering.Role.Walk

namespace ModuleLowering

open Text

/-- A name in an import or export list: an identifier name, or a string with its quotes as written
and its value. -/
inductive ModuleName
  | identifier (name : String)
  | literal (raw value : String)
  deriving DecidableEq

namespace ModuleName

def value : ModuleName → String
  | identifier name => name
  | literal _ value => value

def isDefault (n : ModuleName) : Bool := n.value = "default"

def isLiteral : ModuleName → Bool
  | literal .. => true
  | _ => false

def accessOn (n : ModuleName) (object : String) : String :=
  match n with
  | identifier name => object ++ "." ++ name
  | literal raw _ => object ++ "[" ++ raw ++ "]"

def quoted : ModuleName → String
  | identifier name => "\"" ++ name ++ "\""
  | literal raw _ => raw

end ModuleName

structure Specifier where
  raw : String
  value : String
  span : Span
  deriving DecidableEq

namespace Stream

def identifier? (s : Stream) (i : Nat) : Option String :=
  s.tokens[i]?.bind fun t => if t.kind = .identifier then some t.text else none

def moduleName? (s : Stream) (i : Nat) : Option ModuleName :=
  s.tokens[i]?.bind fun t =>
    if t.kind = .string then some (.literal t.text (stringValue t.text))
    else if t.kind.isIdentifierName then some (.identifier t.text)
    else none

def specifier? (s : Stream) (i : Nat) : Option Specifier :=
  s.tokens[i]?.bind fun t =>
    if t.kind = .string then some ⟨t.text, stringValue t.text, t.span⟩ else none

theorem lt_size_of_moduleName? {s : Stream} {i : Nat} {n : ModuleName} (h : s.moduleName? i = some n) :
    i < s.tokens.size := by
  obtain ⟨t, ht, _⟩ := Option.bind_eq_some_iff.1 h
  exact (Array.getElem?_eq_some_iff.1 ht).1

/-- The index after the import attributes at `i`, if there are any. The word `assert` introduces them
only on the line of the specifier. -/
def skipAttributes (s : Stream) (i : Nat) : Nat :=
  let introduced := s.isAt i (.keyword .«with») ||
    (s.isWordAt i "assert" && s.tokens[i]?.any (!·.lineBreak))
  if introduced && s.isAt (i + 1) .openBrace then s.skip (i + 1) else i

theorem le_skipAttributes (s : Stream) (i : Nat) : i ≤ s.skipAttributes i := by
  have := s.lt_skip (i + 1)
  unfold skipAttributes
  dsimp only
  split <;> omega

def isRenamed (s : Stream) (i : Nat) : Bool := s.isWordAt (i + 1) "as"

def afterNames (s : Stream) (i : Nat) : Nat := if s.isRenamed i then i + 3 else i + 1

theorem lt_afterNames (s : Stream) (i : Nat) : i < s.afterNames i := by
  unfold afterNames
  split <;> omega

def optional (s : Stream) (i : Nat) (kind : Kind) : Nat := if s.isAt i kind then i + 1 else i

theorem le_optional (s : Stream) (i : Nat) (kind : Kind) : i ≤ s.optional i kind := by
  unfold optional
  split <;> omega

def finish (s : Stream) (i : Nat) : Nat := s.optional i .semicolon

theorem le_finish (s : Stream) (i : Nat) : i ≤ s.finish i := s.le_optional i .semicolon

end Stream

end ModuleLowering
