import ModuleLowering.Lexeme.Basic

namespace ModuleLowering

/-- One open construct. A bracket or substitution knows the index of its opening token and how many
conditionals outside it still wait for their colon. -/
inductive Frame
  | group (region : Region) (opener : Nat) (waiting : Nat)
  | tag (closing : Bool)
  | children
  deriving DecidableEq

def Frame.isGroup : Frame → Bool
  | group .. => true
  | _ => false

def Frame.region : Frame → Region
  | group region _ _ => region
  | tag _ => .jsxTag
  | children => .jsxChildren

structure Nesting where
  frames : List Frame
  /-- Conditionals of the innermost bracket that wait for their colon. -/
  ternaries : Nat
  /-- The depths at which a `class` still waits for its body, innermost first. -/
  classes : List Nat
  colonAnswered : Bool
  deriving DecidableEq

namespace Nesting

def empty : Nesting := ⟨[], 0, [], false⟩

def depth (n : Nesting) : Nat := n.frames.countP Frame.isGroup

def context (n : Nesting) : Region := (n.frames.head?.map Frame.region).getD .topLevel

/-- A `class` directly before a token that cannot follow it in a class was only a name. -/
def settleClass (n : Nesting) (previous : Option Token) (kind : Kind) : Nesting :=
  if previous.any (·.kind = .keyword .«class») &&
      !(kind = .identifier || kind = .keyword .«extends» || kind = .openBrace) then
    { n with classes := n.classes.tail }
  else n

def enter (n : Nesting) (region : Region) (opener : Nat) : Nesting :=
  { n with frames := .group region opener n.ternaries :: n.frames, ternaries := 0 }

def awaitsClassBody (n : Nesting) : Bool := n.classes.head? = some n.depth

def braceRegion (n : Nesting) (previous : Option Token) : Region :=
  let blockInStatements : Region :=
    if n.context.holdsStatements || n.context = .classBody then .block else .object
  match previous.map Token.kind with
  | none => .block
  | some .closeParen | some .arrow | some .semicolon | some .closeBrace | some .closeBracket => .block
  | some .openBrace => blockInStatements
  | some .colon =>
    if n.colonAnswered then .object
    else if n.context = .pattern then .pattern
    else if n.context.holdsStatements then .block
    else .object
  | some .comma => if n.context = .pattern then .pattern else .object
  | some (.keyword word) =>
    if word.declaresVariables then .pattern
    else if word ∈ [.«return», .typeof, .void, .delete, .«in», .instanceof, .new, .throw, .case, .yield,
        .await, .default, .«extends»] then .object
    else blockInStatements
  | some .string | some .number | some .regex | some .template | some .identifier
  | some .privateIdentifier | some .templateTail => blockInStatements
  | some _ => .object

end Nesting

end ModuleLowering
