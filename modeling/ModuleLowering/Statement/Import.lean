import ModuleLowering.Statement.Fault
import ModuleLowering.Statement.Name

namespace ModuleLowering

open Text

structure NamedImport where
  imported : ModuleName
  binding : String
  deriving DecidableEq

structure ImportClause where
  defaultName : Option String
  namespaceName : Option String
  named : List NamedImport
  deriving DecidableEq

structure ImportStatement where
  span : Span
  specifier : Specifier
  clause : ImportClause
  deriving DecidableEq

namespace ImportClause

def empty : ImportClause := ⟨none, none, []⟩

def isBare (c : ImportClause) : Bool :=
  c.defaultName.isNone && c.namespaceName.isNone && c.named.isEmpty

end ImportClause

namespace Stream

def importedBinding (s : Stream) (i : Nat) (imported : ModuleName) : Except Diagnostic String :=
  match s.identifier? (if s.isRenamed i then i + 2 else i) with
  | some binding => .ok binding
  | none =>
    refuseImport (.needsLocalName imported.value) (s.offsetAt (if s.isRenamed i then i + 2 else i + 1))

def namedImports (s : Stream) (i : Nat) : Except Diagnostic (List NamedImport × Nat) :=
  if s.isAt i .closeBrace then .ok ([], i + 1)
  else
    match _h : s.moduleName? i with
    | none => refuseImport .expectedName (s.offsetAt i)
    | some imported =>
      match s.importedBinding i imported with
      | .error e => .error e
      | .ok binding =>
        if s.isAt (s.afterNames i) .comma then
          (s.namedImports (s.afterNames i + 1)).map fun (rest, n) => (⟨imported, binding⟩ :: rest, n)
        else if s.isAt (s.afterNames i) .closeBrace then
          .ok ([⟨imported, binding⟩], s.afterNames i + 1)
        else refuseImport .expectedSeparator (s.offsetAt (s.afterNames i))
termination_by s.tokens.size - i
decreasing_by
  have := lt_size_of_moduleName? ‹_›
  have := s.lt_afterNames i
  omega

theorem lt_of_namedImports {s : Stream} {i j : Nat} {named : List NamedImport}
    (h : s.namedImports i = .ok (named, j)) : i < j := by
  fun_induction namedImports s i generalizing named j with
  | case1 => cases h; omega
  | case2 => cases h
  | case3 => cases h
  | case4 i _ _ _ _ _ _ ih =>
    obtain ⟨⟨rest, n⟩, hn, he⟩ := map_eq_ok_iff.1 h
    cases he
    have := ih hn
    have := s.lt_afterNames i
    omega
  | case5 i => cases h; have := s.lt_afterNames i; omega
  | case6 => cases h

def importGroup (s : Stream) (i : Nat) :
    Except Diagnostic ((Option String × List NamedImport) × Nat) :=
  if s.isAt i .asterisk then
    if s.isWordAt (i + 1) "as" then
      match s.identifier? (i + 2) with
      | some name => .ok ((some name, []), i + 3)
      | none => refuseImport .expectedNamespaceName (s.offsetAt (i + 2))
    else refuseImport .expectedAs (s.offsetAt (i + 1))
  else if s.isAt i .openBrace then
    (s.namedImports (i + 1)).map fun (named, j) => ((none, named), j)
  else refuseImport .expectedClause (s.offsetAt i)

def importBindings (s : Stream) (i : Nat) : Except Diagnostic (ImportClause × Nat) :=
  match s.identifier? i with
  | none => (s.importGroup i).map fun ((star, named), j) => (⟨none, star, named⟩, j)
  | some name =>
    if s.isAt (i + 1) .comma then
      (s.importGroup (i + 2)).map fun ((star, named), j) => (⟨some name, star, named⟩, j)
    else .ok (⟨some name, none, []⟩, i + 1)

def importClause (s : Stream) (i : Nat) : Except Diagnostic (ImportClause × Nat) :=
  if s.isAt i .string then .ok (.empty, i)
  else
    match s.importBindings i with
    | .error e => .error e
    | .ok (clause, j) =>
      if s.isWordAt j "from" then .ok (clause, j + 1) else refuseImport .expectedFrom (s.offsetAt j)

def importStatement (s : Stream) (i : Nat) : Except Diagnostic (ImportStatement × Nat) :=
  match s.importClause (i + 1) with
  | .error e => .error e
  | .ok (clause, j) =>
    match s.specifier? j with
    | none => refuseImport .expectedSpecifier (s.offsetAt j)
    | some specifier =>
      let stop := s.finish (s.skipAttributes (j + 1))
      .ok (⟨⟨s.offsetAt i, s.stopBefore stop⟩, specifier, clause⟩, stop)

theorem lt_of_importGroup {s : Stream} {i j : Nat} {group : Option String × List NamedImport}
    (h : s.importGroup i = .ok (group, j)) : i < j := by
  unfold importGroup at h
  split at h
  · split at h
    · split at h <;> cases h; omega
    · cases h
  · split at h
    · obtain ⟨⟨named, n⟩, hn, he⟩ := map_eq_ok_iff.1 h
      cases he
      have := lt_of_namedImports hn
      omega
    · cases h

theorem lt_of_importBindings {s : Stream} {i j : Nat} {clause : ImportClause}
    (h : s.importBindings i = .ok (clause, j)) : i < j := by
  unfold importBindings at h
  split at h
  · obtain ⟨⟨group, n⟩, hn, he⟩ := map_eq_ok_iff.1 h
    cases he
    exact lt_of_importGroup hn
  · split at h
    · obtain ⟨⟨group, n⟩, hn, he⟩ := map_eq_ok_iff.1 h
      cases he
      have := lt_of_importGroup hn
      omega
    · cases h; omega

theorem le_of_importClause {s : Stream} {i j : Nat} {clause : ImportClause}
    (h : s.importClause i = .ok (clause, j)) : i ≤ j := by
  unfold importClause at h
  split at h
  · cases h; omega
  · split at h
    · cases h
    · rename_i hb
      have := lt_of_importBindings hb
      split at h <;> cases h
      omega

theorem lt_of_importStatement {s : Stream} {i j : Nat} {st : ImportStatement}
    (h : s.importStatement i = .ok (st, j)) : i < j := by
  unfold importStatement at h
  split at h
  · cases h
  · rename_i j' hc
    split at h
    · cases h
    · cases h
      have := le_of_importClause hc
      have := s.le_skipAttributes (j' + 1)
      have := s.le_finish (s.skipAttributes (j' + 1))
      omega

end Stream

end ModuleLowering
