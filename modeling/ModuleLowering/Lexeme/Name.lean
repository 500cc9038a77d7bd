import ModuleLowering.Lexeme.Failure
import ModuleLowering.Text.Bytes
import ModuleLowering.Text.CharClass

namespace ModuleLowering.Lexeme

open Text

/-- How many characters of a text that starts at `offset` belong to a name. An escape `\u` takes the
text in braces after it, or else the next four bytes, whatever they are. -/
def nameLength (isPart : Char → Bool) (offset : Nat) (text : List Char) :
    Except (Failure ScanError) Nat :=
  match text with
  | [] => .ok 0
  | '\\' :: 'u' :: '{' :: rest =>
    match rest.findIdx? (· == '}') with
    | none => reject .invalidEscape offset
    | some n =>
      let read := 3 + (n + 1)
      (nameLength isPart (offset + 3 + byteLength (rest.take (n + 1))) (rest.drop (n + 1))).map (read + ·)
  | '\\' :: 'u' :: rest =>
    let digits := takeBytes 4 rest
    if byteLength digits = 4 then
      (nameLength isPart (offset + 6) (rest.drop digits.length)).map (2 + digits.length + ·)
    else if byteLength rest < 4 then reject .invalidEscape offset
    else .error (.splitCharacter offset)
  | c :: rest =>
    if isPart c then (nameLength isPart (offset + c.utf8Size) rest).map (1 + ·) else .ok 0
termination_by text.length
decreasing_by all_goals simp only [List.length_cons, List.length_drop]; omega

end ModuleLowering.Lexeme
