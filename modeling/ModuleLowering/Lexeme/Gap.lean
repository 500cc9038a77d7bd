import ModuleLowering.Text.CharClass

namespace ModuleLowering

open Text

structure Gap where
  length : Nat
  lineBreak : Bool
  deriving DecidableEq

namespace Gap

def empty : Gap := ⟨0, false⟩

def commentLength : List Char → Option Nat
  | '*' :: '/' :: _ => some 2
  | _ :: rest => (commentLength rest).map (· + 1)
  | [] => none

/-- Extends a gap by what can still belong to it. An unclosed comment is an error, which tells the
length of the gap before it. -/
def extend (gap : Gap) (text : List Char) : Except Nat Gap :=
  match text with
  | '/' :: '/' :: rest =>
    let body := rest.takeWhile (!isNewline ·)
    extend { gap with length := gap.length + 2 + body.length } (rest.drop body.length)
  | '/' :: '*' :: rest =>
    match commentLength rest with
    | none => .error gap.length
    | some n =>
      extend ⟨gap.length + 2 + n, gap.lineBreak || (rest.take n).any isNewline⟩ (rest.drop n)
  | c :: rest =>
    if isLineBreak c then extend ⟨gap.length + 1, true⟩ rest
    else if isBlank c then extend { gap with length := gap.length + 1 } rest
    else .ok gap
  | [] => .ok gap
termination_by text.length
decreasing_by all_goals simp only [List.length_cons, List.length_drop]; omega

def read (text : List Char) : Except Nat Gap := empty.extend text

def hashbangLength : List Char → Nat
  | '#' :: '!' :: rest => 2 + (rest.takeWhile (· != '\n')).length
  | _ => 0

end Gap

end ModuleLowering
