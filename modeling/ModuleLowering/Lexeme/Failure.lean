import ModuleLowering.Token.Kind

namespace ModuleLowering

inductive LexicalFault
  | unterminatedComment
  | unterminatedString
  | unterminatedTemplate
  | unterminatedRegex
  | unterminatedJsxTag
  | unterminatedJsxElement
  | unterminatedJsxString
  | invalidEscape
  | unexpectedCharacter (c : Char)
  | unexpectedInTag (c : Char)
  | unexpectedCloser (c : Char)
  | unclosed (region : Region)
  | unexpectedClosingTag
  | emptyClosingTag
  deriving DecidableEq

def Region.opening : Region → String
  | .paren => "'('"
  | .bracket => "'['"
  | .templateExpr => "template substitution"
  | .jsxExpr => "JSX expression container"
  | _ => "'\x7b'"

def LexicalFault.message : LexicalFault → String
  | unterminatedComment => "unterminated comment"
  | unterminatedString => "unterminated string literal"
  | unterminatedTemplate => "unterminated template literal"
  | unterminatedRegex => "unterminated regular expression literal"
  | unterminatedJsxTag => "unterminated JSX tag"
  | unterminatedJsxElement => "unterminated JSX element"
  | unterminatedJsxString => "unterminated JSX attribute string"
  | invalidEscape => "invalid unicode escape"
  | unexpectedCharacter c => "unexpected character '" ++ c.toString ++ "'"
  | unexpectedInTag c => "unexpected character '" ++ c.toString ++ "' in JSX tag"
  | unexpectedCloser c => "unexpected '" ++ c.toString ++ "'"
  | unclosed region => "unclosed " ++ region.opening
  | unexpectedClosingTag => "unexpected JSX closing tag"
  | emptyClosingTag => "unexpected '/>' in JSX closing tag"

structure ScanError where
  fault : LexicalFault
  offset : Nat
  deriving DecidableEq

def atOffset (message : String) (offset : Nat) : String := message ++ s!" at offset {offset}"

def ScanError.render (e : ScanError) : String := atOffset e.fault.message e.offset

/-- A run ends with an error of the source, or, where the four bytes after `\u` end inside a
character, without any answer: the rest of the source is then no text. -/
inductive Failure (ε : Type) where
  | rejected (error : ε)
  | splitCharacter (offset : Nat)
  deriving DecidableEq

def Failure.map {ε δ : Type} (f : ε → δ) : Failure ε → Failure δ
  | rejected error => rejected (f error)
  | splitCharacter offset => splitCharacter offset

theorem map_eq_ok_iff {ε α β : Type} {f : α → β} {x : Except ε α} {b : β} :
    x.map f = .ok b ↔ ∃ a, x = .ok a ∧ f a = b := by
  cases x <;> simp [Except.map]

def reject {α : Type} (fault : LexicalFault) (offset : Nat) : Except (Failure ScanError) α :=
  .error (.rejected ⟨fault, offset⟩)

end ModuleLowering
