import ModuleLowering.Lowering.Options
import ModuleLowering.Lowering.Prologue
import ModuleLowering.Lowering.Reference
import ModuleLowering.Role.Binding

namespace ModuleLowering

open Text

structure Progress (α : Type) where
  done : List α
  failure : Option Diagnostic

namespace Progress

def collect {α : Type} : List (Except Diagnostic (List α)) → Progress α
  | [] => ⟨[], none⟩
  | .error d :: _ => ⟨[], some d⟩
  | .ok xs :: rest => ⟨xs ++ (collect rest).done, (collect rest).failure⟩

def toExcept {α : Type} (p : Progress α) : Except Diagnostic (List α) :=
  match p.failure with
  | none => .ok p.done
  | some d => .error d

end Progress

namespace Context

def ofModule (source : List Char) (s : Stream) (m : SourceModule) (named : Bool) : Context :=
  let rs := Requirements.ofItems m.items
  ⟨source, s, m.bindings, if named then (rs.allocate (.ofStream s)).1 else rs⟩

def itemEdits (x : Context) (items : List ModuleItem) : Progress Edit :=
  .collect (items.map fun item => (x.itemChanges item).map fun changes => changes.map (·.edit))

def referencesEdits (x : Context) (consumed : List Span) : Progress Edit :=
  .collect ((outsideSpans consumed x.stream.valueNames).map fun (t, i) => x.referenceEdits i t)

def edits (x : Context) (m : SourceModule) : Except Diagnostic (List Edit) := do
  let items ← (x.itemEdits m.items).toExcept
  let references ← (x.referencesEdits (m.items.filterMap consumedSpan)).toExcept
  return items ++ references ++ [prologueEdit x.source x.requirements.helpers m.hasExports]

end Context

def moduleExportsSuffix : String := "\nmodule.exports = exports.default;\n"

def suffixFor? (entries : List ExportEntry) : Option String :=
  match entries with
  | [only] => if only.name = "default" then some moduleExportsSuffix else none
  | _ => none

namespace SourceModule

def entries (m : SourceModule) : List ExportEntry :=
  m.items.flatMap fun
    | .imports _ => []
    | .exports st => st.entries

end SourceModule

def lowerStream (source : List Char) (options : Options) (s : Stream) : Except Diagnostic String := do
  let m ← s.toModule
  if !m.hasModuleSyntax then return String.ofList source
  let edits ← (Context.ofModule source s m true).edits m
  let suffix := if options.addModuleExports then (suffixFor? m.entries).getD "" else ""
  return String.ofList (applyEdits source edits) ++ suffix

def lower (source : List Char) (options : Options) : Except (Failure LocatedDiagnostic) String :=
  if !options.imports then .ok (String.ofList source)
  else
    match scan source with
    | .error failure => .error (failure.map fun e => (Diagnostic.ofScan e).locate source)
    | .ok s => (lowerStream source options s).mapError fun d => .rejected (d.locate source)

end ModuleLowering
