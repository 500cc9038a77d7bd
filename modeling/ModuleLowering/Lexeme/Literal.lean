import ModuleLowering.Text.CharClass

/-!
How far a literal reaches. Each function takes the text after the literal's opening and counts the
characters through its end; `none` means that the text ends, or its line does, before the literal.
-/

namespace ModuleLowering.Lexeme

open Text

/-- A string up to its quote. A backslash takes the next character along, also a line break, and a
carriage return together with the line feed after it. -/
def stringLength (quote : Char) : List Char → Option Nat
  | [] => none
  | '\\' :: '\r' :: '\n' :: rest => (stringLength quote rest).map (· + 3)
  | '\\' :: _ :: rest => (stringLength quote rest).map (· + 2)
  | c :: rest =>
    if isNewline c then none
    else if c = quote then some 1
    else (stringLength quote rest).map (· + 1)

inductive ChunkEnd
  | backquote
  | substitution
  deriving DecidableEq

def chunkLength : List Char → Option (Nat × ChunkEnd)
  | [] => none
  | '`' :: _ => some (1, .backquote)
  | '\\' :: _ :: rest => (chunkLength rest).map fun (n, e) => (n + 2, e)
  | '$' :: '{' :: _ => some (2, .substitution)
  | _ :: rest => (chunkLength rest).map fun (n, e) => (n + 1, e)

def regexLength (inClass : Bool) : List Char → Option Nat
  | [] => none
  | '\\' :: _ :: rest => (regexLength inClass rest).map (· + 2)
  | c :: rest =>
    if isNewline c then none
    else if c = '[' then (regexLength true rest).map (· + 1)
    else if c = ']' then (regexLength false rest).map (· + 1)
    else if c = '/' && !inClass then some 1
    else (regexLength inClass rest).map (· + 1)

def flagsLength (text : List Char) : Nat := (text.takeWhile isIdentifierPart).length

def isDigitPart (c : Char) : Bool := c.isDigit || c == '_'

def digitsLength (text : List Char) : Nat := (text.takeWhile isDigitPart).length

def exponentLength : List Char → Nat
  | e :: rest =>
    if e = 'e' || e = 'E' then
      let sign := match rest with
        | '+' :: _ | '-' :: _ => 1
        | _ => 0
      if (rest.drop sign).head?.any (·.isDigit) then 1 + sign + digitsLength (rest.drop sign) else 0
    else 0
  | [] => 0

def fractionLength : List Char → Nat
  | '.' :: rest => 1 + digitsLength rest
  | _ => 0

def bigMarkLength : List Char → Nat
  | 'n' :: _ => 1
  | _ => 0

def decimalLength (text : List Char) : Nat :=
  let a := digitsLength text
  let b := a + fractionLength (text.drop a)
  let c := b + exponentLength (text.drop b)
  c + bigMarkLength (text.drop c)

/-- A number, this time with its first character. After a radix mark any letters and digits belong to
it. -/
def numberLength : List Char → Nat
  | '0' :: mark :: rest =>
    if mark ∈ ['x', 'X', 'o', 'O', 'b', 'B'] then
      2 + (rest.takeWhile fun c => c.isAlphanum || c == '_').length
    else decimalLength ('0' :: mark :: rest)
  | text => decimalLength text

end ModuleLowering.Lexeme
