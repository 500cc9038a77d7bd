import ModuleLowering.SourceModule.Bindings
import ModuleLowering.Statement.ExportSyntax

namespace ModuleLowering

inductive ModuleItem
  | imports (st : ImportStatement)
  | exports (st : ExportStatement)
  deriving DecidableEq

structure SourceModule where
  bindings : Bindings
  items : List ModuleItem
  deriving DecidableEq

namespace SourceModule

def empty : SourceModule := ⟨.empty, []⟩

def hasModuleSyntax (m : SourceModule) : Bool := !m.items.isEmpty

def hasExports (m : SourceModule) : Bool :=
  m.items.any fun
    | .exports _ => true
    | .imports _ => false

def declareAll (m : SourceModule) (names : List String) : SourceModule :=
  { m with bindings := m.bindings.declareAll names }

def addImport (m : SourceModule) (st : ImportStatement) : Except Diagnostic SourceModule :=
  (m.bindings.bindImports st).map fun bindings => ⟨bindings, m.items ++ [.imports st]⟩

def addExport (m : SourceModule) (st : ExportStatement) : SourceModule :=
  ⟨m.bindings.declareAll st.declaredNames, m.items ++ [.exports st]⟩

end SourceModule

namespace Stream

def isImportExpression (s : Stream) (i : Nat) : Bool :=
  s.isAt (i + 1) .openParen || s.isAt (i + 1) .dot

def declaredAt (s : Stream) (i : Nat) (kind : Kind) : List String × Nat :=
  if kind = .keyword .function || kind = .keyword .«class» then
    let j := s.optional (i + 1) .asterisk
    ((s.identifier? j).toList, s.optional j .identifier)
  else if kind.declaresVariables then
    match s.declarators (i + 1) with
    | .ok (declarators, j) => (declarators.flatMap (·.names), j)
    | .error j => ([], j)
  else ([], i + 1)

def visit (s : Stream) (i : Nat) (t : Token) (m : SourceModule) :
    Except Diagnostic (SourceModule × Nat) :=
  if !t.isTopLevel then .ok (m, i + 1)
  else if t.kind = .keyword .«import» && !s.isImportExpression i then
    match s.importStatement i with
    | .error e => .error e
    | .ok (st, j) => (m.addImport st).map fun m => (m, j)
  else if t.kind = .keyword .«export» then
    (s.exportStatement i).map fun (st, j) => (m.addExport st, j)
  else
    let (names, j) := s.declaredAt i t.kind
    .ok (m.declareAll names, j)

theorem lt_declaredAt (s : Stream) (i : Nat) (kind : Kind) : i < (s.declaredAt i kind).2 := by
  unfold declaredAt
  split
  · have := s.le_optional (i + 1) .asterisk
    have := s.le_optional (s.optional (i + 1) .asterisk) .identifier
    dsimp only
    omega
  · split
    · split
      · rename_i h; exact Nat.lt_of_succ_lt (lt_of_declarators h)
      · rename_i h; exact le_of_declarators_error h
    · exact Nat.lt_succ_self i

theorem lt_of_visit {s : Stream} {i j : Nat} {t : Token} {m n : SourceModule}
    (h : s.visit i t m = .ok (n, j)) : i < j := by
  unfold visit at h
  split at h
  · cases h; omega
  · split at h
    · split at h
      · cases h
      · rename_i hi
        obtain ⟨x, _, he⟩ := map_eq_ok_iff.1 h
        cases he
        exact lt_of_importStatement hi
    · split at h
      · obtain ⟨⟨st, k⟩, hk, he⟩ := map_eq_ok_iff.1 h
        cases he
        exact lt_of_exportStatement hk
      · cases h
        exact s.lt_declaredAt i t.kind

def moduleFrom (s : Stream) (i : Nat) (m : SourceModule) : Except Diagnostic SourceModule :=
  match _h : s.tokens[i]? with
  | none => .ok m
  | some t =>
    match _v : s.visit i t m with
    | .error e => .error e
    | .ok (n, j) => s.moduleFrom j n
termination_by s.tokens.size - i
decreasing_by
  have := (Array.getElem?_eq_some_iff.1 ‹_›).1
  have := lt_of_visit ‹_›
  omega

def toModule (s : Stream) : Except Diagnostic SourceModule := s.moduleFrom 0 .empty

end Stream

end ModuleLowering
