import ModuleLowering.Token.Kind

namespace ModuleLowering.Lexeme

def punctuators : List (String × Kind) :=
  [ (">>>=", .operator), ("...", .ellipsis), ("===", .operator), ("!==", .operator), ("**=", .operator),
    ("<<=", .operator), (">>=", .operator), (">>>", .operator), ("&&=", .operator), ("||=", .operator),
    ("??=", .operator), ("=>", .arrow), ("==", .operator), ("!=", .operator), ("<=", .operator),
    (">=", .operator), ("&&", .operator), ("||", .operator), ("??", .operator), ("?.", .questionDot),
    ("++", .plusPlus), ("--", .minusMinus), ("+=", .operator), ("-=", .operator), ("*=", .operator),
    ("/=", .operator), ("%=", .operator), ("&=", .operator), ("|=", .operator), ("^=", .operator),
    ("**", .operator), ("<<", .operator), (">>", .operator), (";", .semicolon), (",", .comma),
    (":", .colon), ("?", .question), ("=", .equals), ("<", .less), (">", .greater), ("*", .asterisk),
    ("/", .slash), (".", .dot), ("@", .atSign), ("+", .operator), ("-", .operator), ("%", .operator),
    ("&", .operator), ("|", .operator), ("^", .operator), ("!", .operator), ("~", .operator) ]

/-- The punctuator that a text begins with, and its length. A question mark before a decimal such as
`.5` is a conditional, not optional chaining. -/
def punctuator? (text : List Char) : Option (Nat × Kind) :=
  match punctuators.find? fun (spelling, _) => spelling.toList.isPrefixOf text with
  | none => none
  | some (spelling, kind) =>
    if kind = .questionDot && (text.drop 2).head?.any (·.isDigit) then some (1, .question)
    else some (spelling.length, kind)

end ModuleLowering.Lexeme
