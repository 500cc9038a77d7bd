import ModuleLowering.Lowering.Line

namespace ModuleLowering

open Text

structure Context where
  source : List Char
  stream : Stream
  bindings : Bindings
  requirements : Requirements

namespace Context

def importChange (x : Context) (st : ImportStatement) : Change :=
  .replace x.source st.span ((x.requirements.linesAt st.specifier.value st.span.start).getD [])

def initializerChange? (d : Declarator) : Option Change :=
  match d.simple, d.equalsEnd, d.names with
  | true, some stop, name :: _ => some (.insert stop [.initializer (.identifier name)])
  | _, _, _ => none

def laterNames (d : Declarator) : List String :=
  if d.simple && d.equalsEnd.isSome then [] else d.names

def assignName (name : String) : Line := .assignment (.identifier name) name

def variableChanges (keyword : Span) (declarators : List Declarator) (stop : Nat) : List Change :=
  let later := declarators.flatMap laterNames
  .remove keyword :: declarators.filterMap initializerChange? ++
    if later.isEmpty then [] else [.insert stop (later.map assignName)]

def getterLine (x : Context) (specifier : String) (offset : Nat) (e : ExportSpecifier) :
    Except Diagnostic Line :=
  match x.requirements.reexportAccess specifier e.source with
  | some access => .ok (.getter e.exported access)
  | none => refuseExport (.noBinding e.source.quoted) offset

def exportChanges (x : Context) : ExportStatement → Except Diagnostic (List Change)
  | .defaultExpression keywords => .ok [⟨keywords, "", [.initializer (.identifier "default")]⟩]
  | .defaultNamed keywords name bodyEnd =>
    .ok [.remove keywords, .insert bodyEnd [.assignment (.identifier "default") name]]
  | .defaultAnonymous keywords bodyEnd =>
    .ok [⟨keywords, "", [.initializer (.identifier "default")]⟩, ⟨.point bodyEnd, "", [.terminator]⟩]
  | .variableList keyword declarators stop => .ok (variableChanges keyword declarators stop)
  | .declaration _ keyword name bodyEnd => .ok [.remove keyword, .insert bodyEnd [assignName name]]
  | .names span specifiers =>
    .ok [.replace x.source span
      (specifiers.map fun e => .assignment e.exported (x.bindings.value x.requirements e.source.value))]
  | .namesFrom span specifiers specifier => do
    let getters ← specifiers.mapM (x.getterLine specifier.value span.start)
    return [.replace x.source span
      ((x.requirements.linesAt specifier.value span.start).getD [] ++ getters)]

def itemChanges (x : Context) : ModuleItem → Except Diagnostic (List Change)
  | .imports st => .ok [x.importChange st]
  | .exports st => x.exportChanges st

def consumedSpan : ModuleItem → Option Span
  | .imports st => some st.span
  | .exports st => st.consumedSpan

end Context

end ModuleLowering
