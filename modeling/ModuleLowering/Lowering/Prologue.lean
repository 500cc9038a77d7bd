import ModuleLowering.Lowering.NameRegistry
import ModuleLowering.Text.Edit
import ModuleLowering.Text.CharClass

namespace ModuleLowering

open Text

def strictDirective : String := "'use strict';"

def exportsMark : String := "Object.defineProperty(exports, \"__esModule\", \x7bvalue: true\x7d);"

def HelperNames.bodies (h : HelperNames) : String :=
  "function " ++ h.wildcard ++
    "(obj) \x7b if (obj && obj.__esModule) \x7b return obj; \x7d else \x7b var newObj = \x7b\x7d; " ++
    "if (obj != null) \x7b for (var key in obj) \x7b " ++
    "if (Object.prototype.hasOwnProperty.call(obj, key)) newObj[key] = obj[key]; \x7d \x7d " ++
    "newObj.default = obj; return newObj; \x7d \x7d function " ++ h.default ++
    "(obj) \x7b return obj && obj.__esModule ? obj : \x7b default: obj \x7d; \x7d"

def prologue (helpers : Option HelperNames) (hasExports : Bool) : String :=
  " ".intercalate ([strictDirective] ++ (helpers.map (·.bodies)).toList ++
    if hasExports then [exportsMark] else [])

def prologueLead (source : List Char) : List Char :=
  match source with
  | '#' :: '!' :: _ =>
    let line := source.takeWhile (· != '\n')
    source.take (line.length + 1)
  | _ => []

def prologueOffset (source : List Char) : Nat := byteLength (prologueLead source)

def prologueEdit (source : List Char) (helpers : Option HelperNames) (hasExports : Bool) : Edit :=
  let next := (source.drop (prologueLead source).length).head?
  let blank := if next.any (!isWhiteSpace ·) then " " else ""
  ⟨.point (prologueOffset source), prologue helpers hasExports ++ blank⟩

end ModuleLowering
