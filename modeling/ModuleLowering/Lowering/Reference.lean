import ModuleLowering.Lowering.Statement

/-!
Lowering references: a name in a value position that is imported becomes an access. The form
`(0, holder.property)` leaves `this` unbound in a call.
-/

namespace ModuleLowering

open Text

inductive ReferenceForm
  | plain
  /-- After a semicolon, where the line before could otherwise go on with the parenthesis. -/
  | guarded
  | property
  | tag
  deriving DecidableEq

def ReferenceForm.render (name : String) (access : Access) : ReferenceForm → String
  | plain => "(0, " ++ access.render ++ ")"
  | guarded => ";(0, " ++ access.render ++ ")"
  | property => name ++ ": (0, " ++ access.render ++ ")"
  | tag => access.render

namespace Stream

def closesHead (s : Stream) (t : Token) : Bool :=
  t.kind = .closeParen &&
    t.pair.any fun opener =>
      (s.before? opener).any fun p =>
        p.kind ∈ [.keyword .«if», .keyword .«while», .keyword .«for», .keyword .«with»]

def needsGuard (s : Stream) (i : Nat) (t : Token) : Bool :=
  t.lineBreak && t.context.holdsStatements &&
    (s.before? i).any fun p => p.endsExpression && !s.closesHead p

def valueNames (s : Stream) : List (Token × Nat) :=
  s.tokens.toList.zipIdx.filter fun (t, _) => t.kind = .identifier && t.role.any (·.isValue)

def referenceForm (s : Stream) (i : Nat) (t : Token) : ReferenceForm :=
  if t.role = some .shorthand then .property
  else if t.role = some .jsxTag then .tag
  else if s.needsGuard i t then .guarded
  else .plain

end Stream

/-- The tokens that start in none of the spans. The spans are taken to be sorted: one is dropped for
good when a token starts at its end or later, and only the first of the rest is looked at. -/
def outsideSpans : List Span → List (Token × Nat) → List (Token × Nat)
  | _, [] => []
  | spans, (t, i) :: rest =>
    let spans := spans.dropWhile (·.stop ≤ t.start)
    if spans.head?.any (·.start ≤ t.start) then outsideSpans spans rest
    else (t, i) :: outsideSpans spans rest

namespace Context

def referenceEdits (x : Context) (i : Nat) (t : Token) : Except Diagnostic (List Edit) :=
  match x.bindings.origin? t.text with
  | none => .ok []
  | some origin =>
    match x.requirements.access origin with
    | none => .ok []
    | some access =>
      if t.role = some .jsxTag && (match origin.imported with
          | .named name => name.isLiteral
          | _ => false) then
        .error ⟨.unsupported .stringNamedTag, t.start⟩
      else .ok [⟨t.span, (x.stream.referenceForm i t).render t.text access⟩]

end Context

end ModuleLowering
