import ModuleLowering.Lowering.Access
import ModuleLowering.Text.Edit

namespace ModuleLowering

open Text

inductive Line
  | require (literal : String)
  | declare (holder literal : String)
  | interop (holder helper source : String)
  | assignment (name : ModuleName) (value : String)
  | initializer (name : ModuleName)
  | getter (name : ModuleName) (access : Access)
  | terminator
  deriving DecidableEq

def Line.render : Line → String
  | require literal => "require(" ++ literal ++ ");"
  | declare holder literal => "var " ++ holder ++ " = require(" ++ literal ++ ");"
  | interop holder helper source => "var " ++ holder ++ " = " ++ helper ++ "(" ++ source ++ ");"
  | assignment name value => name.accessOn "exports" ++ " = " ++ value ++ ";"
  | initializer name => name.accessOn "exports" ++ " ="
  | getter name access =>
    "Object.defineProperty(exports, " ++ name.quoted ++
      ", \x7b enumerable: true, get: function () \x7b return " ++ access.render ++ "; \x7d \x7d);"
  | terminator => ";"

def renderLines (lines : List Line) : String := " ".intercalate (lines.map Line.render)

structure Change where
  span : Span
  lead : String
  lines : List Line
  deriving DecidableEq

namespace Change

def edit (c : Change) : Edit := ⟨c.span, c.lead ++ renderLines c.lines⟩

def remove (span : Span) : Change := ⟨span, "", []⟩

def insert (offset : Nat) (lines : List Line) : Change := ⟨.point offset, " ", lines⟩

def replace (source : List Char) (span : Span) (lines : List Line) : Change :=
  ⟨span, lineFeeds (span.text source), lines⟩

end Change

namespace Requirements

def linesOf (rs : Requirements) (r : Requirement) : List Line :=
  match r.holder with
  | none => [.require r.literal]
  | some holder =>
    .declare holder r.literal ::
      match rs.helpers with
      | none => []
      | some helpers =>
        (r.defaultHolder.map (Line.interop · helpers.default holder)).toList ++
          r.namespaces.map (Line.interop · helpers.wildcard holder)

def linesAt (rs : Requirements) (specifier : String) (offset : Nat) : Option (List Line) :=
  (rs.find? specifier).bind fun r => if r.first = offset then some (rs.linesOf r) else none

end Requirements

end ModuleLowering
