import ModuleLowering.Lexeme.Literal
import ModuleLowering.Lexeme.Name
import ModuleLowering.Lexeme.Punctuator
import ModuleLowering.Token.Basic

/-!
Lexemes: the token that a text begins with, as far as the text and the token before decide it. Three
readers serve code, the inside of a JSX tag, and the text between JSX tags.
-/

namespace ModuleLowering

open Text

inductive Effect
  | stays
  | asks
  | answers
  | opensBrace
  | opens (region : Region)
  | closes
  | leaves
  | reenters
  | beginsTag (closing : Bool)
  | endsTag
  | endsEmptyTag
  deriving DecidableEq

structure Lexeme where
  kind : Kind
  extra : Nat
  effect : Effect

def expectsOperand (previous : Option Token) : Bool := !previous.any (·.endsExpression)

namespace Lexeme

def orReject {α : Type} (read : Option α) (fault : LexicalFault) (start : Nat) :
    Except (Failure ScanError) α :=
  match read with
  | some a => .ok a
  | none => reject fault start

def ofChunk (head : Bool) (start : Nat) (rest : List Char) : Except (Failure ScanError) Lexeme :=
  match chunkLength rest with
  | none => reject .unterminatedTemplate start
  | some (n, .backquote) =>
    .ok (if head then ⟨.template, n, .stays⟩ else ⟨.templateTail, n, .leaves⟩)
  | some (n, .substitution) =>
    .ok (if head then ⟨.templateHead, n, .opens .templateExpr⟩ else ⟨.templateMiddle, n, .reenters⟩)

/-- The kind of a name in code; after a dot reserved words are plain names. -/
def wordKind (previous : Option Token) (word : String) : Kind :=
  if previous.any fun t => t.kind = .dot || t.kind = .questionDot then .identifier
  else ((Keyword.ofSpelling? word).map Kind.keyword).getD .identifier

def ofWord (previous : Option Token) (start : Nat) (c : Char) (rest : List Char) :
    Except (Failure ScanError) Lexeme := do
  match ← nameLength isIdentifierPart start (c :: rest) with
  | 0 => reject (.unexpectedCharacter c) start
  | n + 1 => .ok ⟨wordKind previous (String.ofList (c :: rest.take n)), n, .stays⟩

def ofPunctuator (start : Nat) (c : Char) (rest : List Char) : Except (Failure ScanError) Lexeme :=
  match punctuator? (c :: rest) with
  | none => reject (.unexpectedCharacter c) start
  | some (n, kind) =>
    .ok ⟨kind, n - 1, if kind = .question then .asks else if kind = .colon then .answers else .stays⟩

def beginsElement (rest : List Char) : Bool := rest.head?.any fun c => c == '>' || isIdentifierStart c

def ofCode (previous : Option Token) (inSubstitution : Bool) (start : Nat) (c : Char) (rest : List Char) :
    Except (Failure ScanError) Lexeme :=
  if c = '"' || c = '\'' then do
    let n ← orReject (stringLength c rest) .unterminatedString start
    .ok ⟨.string, n, .stays⟩
  else if c = '`' then ofChunk true start rest
  else if c.isDigit || (c = '.' && rest.head?.any (·.isDigit)) then
    .ok ⟨.number, numberLength (c :: rest) - 1, .stays⟩
  else if c = '#' then do
    match ← nameLength isIdentifierPart (start + 1) rest with
    | 0 => reject (.unexpectedCharacter '#') start
    | n => .ok ⟨.privateIdentifier, n, .stays⟩
  else if c = '{' then .ok ⟨.openBrace, 0, .opensBrace⟩
  else if c = '(' then .ok ⟨.openParen, 0, .opens .paren⟩
  else if c = '[' then .ok ⟨.openBracket, 0, .opens .bracket⟩
  else if c = '}' then
    if inSubstitution then ofChunk false start rest else .ok ⟨.closeBrace, 0, .closes⟩
  else if c = ')' then .ok ⟨.closeParen, 0, .closes⟩
  else if c = ']' then .ok ⟨.closeBracket, 0, .closes⟩
  else if c = '/' && expectsOperand previous then do
    let n ← orReject (regexLength false rest) .unterminatedRegex start
    .ok ⟨.regex, n + flagsLength (rest.drop n), .stays⟩
  else if c = '<' && expectsOperand previous && beginsElement rest then
    .ok ⟨.less, 0, .beginsTag false⟩
  else if isIdentifierStart c || c = '\\' then ofWord previous start c rest
  else ofPunctuator start c rest

def ofTag (start : Nat) (c : Char) (rest : List Char) : Except (Failure ScanError) Lexeme :=
  if c = '>' then .ok ⟨.greater, 0, .endsTag⟩
  else if c = '/' && rest.head? = some '>' then .ok ⟨.slashGreater, 1, .endsEmptyTag⟩
  else if c = '{' then .ok ⟨.openBrace, 0, .opens .jsxExpr⟩
  else if c = '=' then .ok ⟨.equals, 0, .stays⟩
  else if c = '.' then .ok ⟨.dot, 0, .stays⟩
  else if c = ':' then .ok ⟨.colon, 0, .stays⟩
  else if c = '"' || c = '\'' then do
    let n ← orReject (rest.findIdx? (· == c)) .unterminatedJsxString start
    .ok ⟨.string, n + 1, .stays⟩
  else if c = '<' then .ok ⟨.less, 0, .beginsTag false⟩
  else if isIdentifierStart c then do
    .ok ⟨.identifier, (← nameLength isJsxNamePart start (c :: rest)) - 1, .stays⟩
  else reject (.unexpectedInTag c) start

def ofChild (c : Char) (rest : List Char) : Lexeme :=
  if c = '<' then
    if rest.head? = some '/' then ⟨.lessSlash, 1, .beginsTag true⟩ else ⟨.less, 0, .beginsTag false⟩
  else if c = '{' then ⟨.openBrace, 0, .opens .jsxExpr⟩
  else ⟨.jsxText, (rest.takeWhile fun d => d != '<' && d != '{').length, .stays⟩

end Lexeme

end ModuleLowering
