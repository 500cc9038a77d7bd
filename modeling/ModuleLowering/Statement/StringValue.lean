import ModuleLowering.Text.Hexadecimal

namespace ModuleLowering

open Text

namespace StringValue

def codePoint (hex : List Char) : List Char :=
  let digits := match hex with
    | '+' :: digits => digits
    | digits => digits
  match digits, hexNumber? digits with
  | _ :: _, some n => if n.isValidChar then [Char.ofNat n] else []
  | _, _ => []

/-- The characters that a literal without its quotes stands for. An escaped line break stands for
nothing, and an unknown escape for the character itself. -/
def unescape (text : List Char) : List Char :=
  match text with
  | [] => []
  | ['\\'] => []
  | '\\' :: '\r' :: '\n' :: rest => unescape rest
  | '\\' :: 'u' :: '{' :: rest =>
    let hex := rest.takeWhile (· != '}')
    codePoint hex ++ unescape (rest.drop (hex.length + 1))
  | '\\' :: c :: rest =>
    if c = 'u' then codePoint (rest.take 4) ++ unescape (rest.drop 4)
    else if c = 'x' then codePoint (rest.take 2) ++ unescape (rest.drop 2)
    else
      let value : List Char := match c with
        | 'n' => ['\n']
        | 't' => ['\t']
        | 'r' => ['\r']
        | 'b' => ['\x08']
        | 'f' => ['\x0C']
        | 'v' => ['\x0B']
        | '0' => ['\x00']
        | '\n' | '\r' | '\u2028' | '\u2029' => []
        | c => [c]
      value ++ unescape rest
  | c :: rest => c :: unescape rest
termination_by text.length
decreasing_by all_goals simp only [List.length_cons, List.length_drop]; omega

end StringValue

def stringValue (literal : String) : String :=
  String.ofList (StringValue.unescape (literal.toList.drop 1).dropLast)

end ModuleLowering
