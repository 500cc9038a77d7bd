/-!
The reserved words. Words such as `from`, `as`, `async` and `static` are ordinary names and are
told apart where they matter.
-/

namespace ModuleLowering

inductive Keyword
  | await | «break» | case | «catch» | «class» | const | «continue» | debugger | default | delete
  | «do» | «else» | enum | «export» | «extends» | falseLit | «finally» | «for» | function | «if»
  | «import» | «in» | instanceof | «let» | new | nullLit | «return» | super | switch | this | throw
  | trueLit | «try» | typeof | var | void | «while» | «with» | yield
  deriving DecidableEq

namespace Keyword

def all : List Keyword :=
  [ .await, .«break», .case, .«catch», .«class», .const, .«continue», .debugger, .default, .delete,
    .«do», .«else», .enum, .«export», .«extends», .falseLit, .«finally», .«for», .function, .«if»,
    .«import», .«in», .instanceof, .«let», .new, .nullLit, .«return», .super, .switch, .this, .throw,
    .trueLit, .«try», .typeof, .var, .void, .«while», .«with», .yield ]

def spelling : Keyword → String
  | .await => "await"
  | .«break» => "break"
  | .case => "case"
  | .«catch» => "catch"
  | .«class» => "class"
  | .const => "const"
  | .«continue» => "continue"
  | .debugger => "debugger"
  | .default => "default"
  | .delete => "delete"
  | .«do» => "do"
  | .«else» => "else"
  | .enum => "enum"
  | .«export» => "export"
  | .«extends» => "extends"
  | .falseLit => "false"
  | .«finally» => "finally"
  | .«for» => "for"
  | .function => "function"
  | .«if» => "if"
  | .«import» => "import"
  | .«in» => "in"
  | .instanceof => "instanceof"
  | .«let» => "let"
  | .new => "new"
  | .nullLit => "null"
  | .«return» => "return"
  | .super => "super"
  | .switch => "switch"
  | .this => "this"
  | .throw => "throw"
  | .trueLit => "true"
  | .«try» => "try"
  | .typeof => "typeof"
  | .var => "var"
  | .void => "void"
  | .«while» => "while"
  | .«with» => "with"
  | .yield => "yield"

def ofSpelling? (word : String) : Option Keyword := all.find? (·.spelling == word)

theorem spelling_of_ofSpelling? {word : String} {k : Keyword} (h : ofSpelling? word = some k) :
    k.spelling = word := by simpa using List.find?_some h

theorem mem_all (k : Keyword) : k ∈ all := by cases k <;> decide

def isValue : Keyword → Bool
  | .this | .super | .nullLit | .trueLit | .falseLit => true
  | _ => false

def declaresVariables : Keyword → Bool
  | .var | .«let» | .const => true
  | _ => false

end Keyword

end ModuleLowering
