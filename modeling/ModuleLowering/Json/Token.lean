import ModuleLowering.Text.Hexadecimal

/-!
The tokens of JSON texts. Numbers keep their text. A string whose escapes leave half of a surrogate
pair alone is a token too, but has no value.
-/

namespace ModuleLowering.Json

open Text

inductive Token
  | openArray
  | closeArray
  | openObject
  | closeObject
  | comma
  | colon
  | null
  | bool (value : Bool)
  | number (text : String)
  | string (value : Option String)
  deriving DecidableEq

namespace Token

inductive Piece
  | char (c : Char)
  | unit (n : Nat)
  deriving DecidableEq

def join? : List Piece → Option (List Char)
  | [] => some []
  | .char c :: rest => (join? rest).map (c :: ·)
  | [.unit n] => if n.isValidChar then some [Char.ofNat n] else none
  | .unit n :: .char c :: rest =>
    if n.isValidChar then (join? rest).map (Char.ofNat n :: c :: ·) else none
  | .unit n :: .unit low :: rest =>
    if n.isValidChar then (join? (.unit low :: rest)).map (Char.ofNat n :: ·)
    else if n < 0xDC00 ∧ 0xDC00 ≤ low ∧ low < 0xE000 then
      (join? rest).map (Char.ofNat (0x10000 + (n - 0xD800) * 0x400 + (low - 0xDC00)) :: ·)
    else none

def escape? : Char → Option Char
  | '"' => some '"'
  | '\\' => some '\\'
  | '/' => some '/'
  | 'b' => some '\x08'
  | 'f' => some '\x0C'
  | 'n' => some '\n'
  | 'r' => some '\r'
  | 't' => some '\t'
  | _ => none

def pieces? : List Char → Option (List Piece × Nat)
  | [] => none
  | '"' :: _ => some ([], 1)
  | '\\' :: 'u' :: a :: b :: c :: d :: rest => do
    let n ← hexNumber? [a, b, c, d]
    let (ps, length) ← pieces? rest
    return (.unit n :: ps, length + 6)
  | '\\' :: c :: rest => do
    let c ← escape? c
    let (ps, length) ← pieces? rest
    return (.char c :: ps, length + 2)
  | c :: rest => do
    guard (c ≠ '\\' ∧ ' ' ≤ c)
    let (ps, length) ← pieces? rest
    return (.char c :: ps, length + 1)

def digitCount (cs : List Char) : Nat := (cs.takeWhile Char.isDigit).length

def wholeLength? (cs : List Char) : Option Nat :=
  if cs.head? = some '0' then some 1
  else if digitCount cs = 0 then none else some (digitCount cs)

def fractionLength? : List Char → Option Nat
  | '.' :: cs => if digitCount cs = 0 then none else some (1 + digitCount cs)
  | _ => some 0

def exponentLength? : List Char → Option Nat
  | c :: cs =>
    if c ≠ 'e' ∧ c ≠ 'E' then some 0
    else
      let sign := if cs.head? = some '+' ∨ cs.head? = some '-' then 1 else 0
      let count := digitCount (cs.drop sign)
      if count = 0 then none else some (1 + sign + count)
  | [] => some 0

def numberLength? (cs : List Char) : Option Nat := do
  let sign := if cs.head? = some '-' then 1 else 0
  let whole ← wholeLength? (cs.drop sign)
  let cs := cs.drop (sign + whole)
  let fraction ← fractionLength? cs
  let exponent ← exponentLength? (cs.drop fraction)
  return sign + whole + fraction + exponent

def literal? (token : Token) (ending : String) (rest : List Char) : Option (Token × Nat) :=
  if ending.toList.isPrefixOf rest then some (token, ending.length) else none

def first? (c : Char) (rest : List Char) : Option (Token × Nat) :=
  match c with
  | '[' => some (.openArray, 0)
  | ']' => some (.closeArray, 0)
  | '{' => some (.openObject, 0)
  | '}' => some (.closeObject, 0)
  | ',' => some (.comma, 0)
  | ':' => some (.colon, 0)
  | 'n' => literal? .null "ull" rest
  | 't' => literal? (.bool true) "rue" rest
  | 'f' => literal? (.bool false) "alse" rest
  | '"' => (pieces? rest).map fun (ps, length) => (.string ((join? ps).map String.ofList), length)
  | c => (numberLength? (c :: rest)).map fun length =>
    (.number (String.ofList ((c :: rest).take length)), length - 1)

def isBlank (c : Char) : Bool := c = ' ' ∨ c = '\t' ∨ c = '\n' ∨ c = '\r'

end Token

def tokens? (text : List Char) : Option (List Token) :=
  match text with
  | [] => some []
  | c :: rest =>
    if Token.isBlank c then tokens? rest
    else
      match Token.first? c rest with
      | none => none
      | some (token, extra) => (tokens? (rest.drop extra)).map (token :: ·)
termination_by text.length
decreasing_by all_goals simp only [List.length_cons, List.length_drop]; omega

end ModuleLowering.Json
