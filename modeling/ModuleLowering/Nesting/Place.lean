import ModuleLowering.Nesting.Basic

/-!
Placing a token: which regions are open around it and after it. A bracket stands outside the region
that it opens or closes.
-/

namespace ModuleLowering

def Region.closer? : Region → Option Kind
  | .paren => some .closeParen
  | .bracket => some .closeBracket
  | .block | .object | .pattern | .classBody | .jsxExpr => some .closeBrace
  | .topLevel | .templateExpr | .jsxTag | .jsxChildren => none

def Kind.closerChar : Kind → Char
  | .closeParen => ')'
  | .closeBracket => ']'
  | _ => '}'

structure Place where
  around : Nesting
  group : Option Region
  pair : Option Nat
  after : Nesting

namespace Nesting

def brace (n : Nesting) (previous : Option Token) : Nesting × Region :=
  if n.awaitsClassBody then ({ n with classes := n.classes.tail }, .classBody)
  else (n, n.braceRegion previous)

def exit (n : Nesting) : Nesting :=
  match n.frames with
  | .group _ _ waiting :: frames => { n with frames, ternaries := waiting }
  | _ => n

def close (n : Nesting) (kind : Kind) : Except LexicalFault Place :=
  match n.frames with
  | .group region opener _ :: _ =>
    if region.closer? = some kind then .ok ⟨n.exit, some region, some opener, n.exit⟩
    else .error (.unexpectedCloser kind.closerChar)
  | _ => .error (.unexpectedCloser kind.closerChar)

def endTag (n : Nesting) : Except LexicalFault Nesting :=
  match n.frames with
  | .tag true :: .children :: frames => .ok { n with frames }
  | .tag true :: _ => .error .unexpectedClosingTag
  | frames => .ok { n with frames := .children :: frames.tail }

def endEmptyTag (n : Nesting) : Except LexicalFault Nesting :=
  match n.frames with
  | .tag true :: _ => .error .emptyClosingTag
  | frames => .ok { n with frames := frames.tail }

def placeEffect (n : Nesting) (previous : Option Token) (kind : Kind) (index : Nat) :
    Effect → Except LexicalFault Place
  | .stays => .ok ⟨n, none, none, n⟩
  | .asks => .ok ⟨n, none, none, { n with ternaries := n.ternaries + 1 }⟩
  | .answers =>
    .ok ⟨n, none, none, { n with ternaries := n.ternaries - 1, colonAnswered := 0 < n.ternaries }⟩
  | .opensBrace =>
    let (around, region) := n.brace previous
    .ok ⟨around, some region, none, around.enter region index⟩
  | .opens region => .ok ⟨n, some region, none, n.enter region index⟩
  | .closes => n.close kind
  | .leaves => .ok ⟨n.exit, none, none, n.exit⟩
  | .reenters => .ok ⟨n.exit, some .templateExpr, none, n.exit.enter .templateExpr index⟩
  | .beginsTag closing => .ok ⟨n, none, none, { n with frames := .tag closing :: n.frames }⟩
  | .endsTag => n.endTag.map fun after => ⟨n, none, none, after⟩
  | .endsEmptyTag => n.endEmptyTag.map fun after => ⟨n, none, none, after⟩

def awaitClass (n : Nesting) (kind : Kind) : Nesting :=
  if kind = .keyword .«class» then { n with classes := n.depth :: n.classes } else n

def place (n : Nesting) (previous : Option Token) (kind : Kind) (effect : Effect) (index : Nat) :
    Except LexicalFault Place := do
  let p ← (n.settleClass previous kind).placeEffect previous kind index effect
  return { p with after := p.after.awaitClass kind }

end Nesting

end ModuleLowering
