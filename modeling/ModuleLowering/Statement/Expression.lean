import ModuleLowering.Token.Basic

/-!
Where an expression at module level ends: at a comma, a semicolon, or a line break that the next
token cannot continue over.
-/

namespace ModuleLowering

def Token.continuesExpression (t : Token) : Bool :=
  match t.kind with
  | .dot | .questionDot | .comma | .question | .colon | .equals | .arrow | .less | .greater | .asterisk
  | .slash | .openParen | .openBracket | .closeParen | .closeBracket | .closeBrace | .templateHead
  | .templateMiddle | .templateTail | .template | .keyword .«in» | .keyword .instanceof => true
  | .operator => t.text ≠ "!" && t.text ≠ "~"
  | _ => false

namespace Stream

def endsExpressionAt (s : Stream) (start i : Nat) (t : Token) : Bool :=
  t.isTopLevel &&
    (t.kind = .comma || t.kind = .semicolon ||
      (start < i && t.lineBreak && (s.before? i).any (·.endsExpression) && !t.continuesExpression))

def expressionEndFrom (s : Stream) (start i : Nat) : Nat :=
  match _h : s.tokens[i]? with
  | none => i
  | some t => if s.endsExpressionAt start i t then i else s.expressionEndFrom start (i + 1)
termination_by s.tokens.size - i
decreasing_by have := (Array.getElem?_eq_some_iff.1 ‹_›).1; omega

def expressionEnd (s : Stream) (start : Nat) : Nat := s.expressionEndFrom start start

theorem le_expressionEndFrom (s : Stream) (start i : Nat) : i ≤ s.expressionEndFrom start i := by
  fun_induction expressionEndFrom s start i <;> omega

theorem le_expressionEnd (s : Stream) (start : Nat) : start ≤ s.expressionEnd start :=
  s.le_expressionEndFrom start start

end Stream

end ModuleLowering
