import ModuleLowering.Statement.Export
import ModuleLowering.Statement.Fault

namespace ModuleLowering

open Text

namespace Stream

def beginsFunction (s : Stream) (i : Nat) : Bool :=
  s.isAt i (.keyword .function) ||
    (s.isWordAt i "async" &&
      s.tokens[i + 1]?.any fun t => t.kind = .keyword .function && !t.lineBreak)

structure Declaration where
  name : Option String
  bodyEnd : Nat
  next : Nat

def functionName (s : Stream) (i : Nat) : Nat :=
  let keyword := if s.isWordAt i "async" then i + 1 else i
  s.optional (s.optional keyword (.keyword .function)) .asterisk

def functionDeclaration (s : Stream) (i : Nat) : Except Diagnostic Declaration :=
  let start := s.functionName i
  let parameters := s.optional start .identifier
  let body := s.skip parameters
  if !s.isAt parameters .openParen then refuseExport .expectedParameters (s.offsetAt parameters)
  else if !s.isAt body .openBrace then refuseExport .expectedFunctionBody (s.offsetAt body)
  else
    match s.closer? body with
    | none => refuseExport .unclosedFunctionBody (s.offsetAt body)
    | some j => .ok ⟨s.identifier? start, s.stopBefore (j + 1), j + 1⟩

def classBody? (s : Stream) (i : Nat) : Option Nat :=
  match _h : s.tokens[i]? with
  | none => none
  | some t =>
    if t.isTopLevel && t.kind = .openBrace && t.group = some .classBody then some i
    else s.classBody? (i + 1)
termination_by s.tokens.size - i
decreasing_by have := (Array.getElem?_eq_some_iff.1 ‹_›).1; omega

theorem le_of_classBody? {s : Stream} {i j : Nat} (h : s.classBody? i = some j) : i ≤ j := by
  fun_induction classBody? s i with
  | case1 => cases h
  | case2 => cases h; omega
  | case3 i _ _ _ ih => have := ih h; omega

def classDeclaration (s : Stream) (i : Nat) : Except Diagnostic Declaration :=
  match s.classBody? (s.optional (i + 1) .identifier) with
  | none => refuseExport .expectedClassBody (s.offsetAt i)
  | some body =>
    match s.closer? body with
    | none => refuseExport .unclosedClassBody (s.offsetAt body)
    | some j => .ok ⟨s.identifier? (i + 1), s.stopBefore (j + 1), j + 1⟩

def exportSpecifier (s : Stream) (i : Nat) : Except Diagnostic ExportSpecifier :=
  match s.moduleName? i with
  | none => refuseExport .expectedName (s.offsetAt i)
  | some source =>
    if s.isRenamed i then
      match s.moduleName? (i + 2) with
      | some exported => .ok ⟨source, exported⟩
      | none => refuseExport .expectedNameAfterAs (s.offsetAt (i + 2))
    else .ok ⟨source, source⟩

theorem lt_size_of_exportSpecifier {s : Stream} {i : Nat} {e : ExportSpecifier}
    (h : s.exportSpecifier i = .ok e) : i < s.tokens.size := by
  unfold exportSpecifier at h
  split at h
  · cases h
  · rename_i hn; exact lt_size_of_moduleName? hn

def exportSpecifiers (s : Stream) (i : Nat) : Except Diagnostic (List ExportSpecifier × Nat) :=
  if s.isAt i .closeBrace then .ok ([], i + 1)
  else
    match _h : s.exportSpecifier i with
    | .error e => .error e
    | .ok first =>
      if s.isAt (s.afterNames i) .comma then
        (s.exportSpecifiers (s.afterNames i + 1)).map fun (rest, n) => (first :: rest, n)
      else if s.isAt (s.afterNames i) .closeBrace then .ok ([first], s.afterNames i + 1)
      else refuseExport .expectedSeparator (s.offsetAt (s.afterNames i))
termination_by s.tokens.size - i
decreasing_by
  have := lt_size_of_exportSpecifier ‹_›
  have := s.lt_afterNames i
  omega

def foreignName? (specifiers : List ExportSpecifier) : Option ModuleName :=
  (specifiers.map (·.source)).find? fun n =>
    match n with
    | .identifier name => (Keyword.ofSpelling? name).isSome
    | .literal .. => true

def exportList (s : Stream) (i : Nat) : Except Diagnostic (ExportStatement × Nat) :=
  match s.exportSpecifiers (i + 2) with
  | .error e => .error e
  | .ok (specifiers, j) =>
    if s.isWordAt j "from" then
      match s.specifier? (j + 1) with
      | none => refuseExport .expectedSpecifier (s.offsetAt (j + 1))
      | some specifier =>
        let stop := s.finish (s.skipAttributes (j + 2))
        .ok (.namesFrom ⟨s.offsetAt i, s.stopBefore stop⟩ specifiers specifier, stop)
    else
      match foreignName? specifiers with
      | some name => refuseExport (.notLocal name.value) (s.offsetAt i)
      | none => .ok (.names ⟨s.offsetAt i, s.stopBefore (s.finish j)⟩ specifiers, s.finish j)

def exportDefault (s : Stream) (i : Nat) : Except Diagnostic (ExportStatement × Nat) :=
  let keywords : Span := ⟨s.offsetAt i, s.stopBefore (i + 2)⟩
  let named (d : Declaration) : ExportStatement × Nat :=
    match d.name with
    | some name => (.defaultNamed keywords name d.bodyEnd, d.next)
    | none => (.defaultAnonymous keywords d.bodyEnd, d.next)
  if s.beginsFunction (i + 2) then (s.functionDeclaration (i + 2)).map named
  else if s.isAt (i + 2) (.keyword .«class») then (s.classDeclaration (i + 2)).map named
  else
    let stop := s.expressionEnd (i + 2)
    if stop = i + 2 then refuseExport .expectedExpression (s.offsetAt stop)
    else .ok (.defaultExpression keywords, s.finish stop)

def exportVariables (s : Stream) (i : Nat) (keyword : Span) :
    Except Diagnostic (ExportStatement × Nat) :=
  match s.declarators (i + 2) with
  | .error j => refuseExport .expectedVariables (s.offsetAt j)
  | .ok (declarators, j) => .ok (.variableList keyword declarators (s.stopBefore (s.finish j)), s.finish j)

def exportDeclaration (form : DeclarationForm) (unnamed : ExportFault) (keyword : Span)
    (d : Declaration) : Except Diagnostic (ExportStatement × Nat) :=
  match d.name with
  | some name => .ok (.declaration form keyword name d.bodyEnd, d.next)
  | none => refuseExport unnamed keyword.start

def exportStatement (s : Stream) (i : Nat) : Except Diagnostic (ExportStatement × Nat) :=
  let keyword : Span := ⟨s.offsetAt i, s.stopBefore (i + 1)⟩
  match s.tokens[i + 1]? with
  | none => refuseExport .endOfInput (s.offsetAt (i + 1))
  | some next =>
    if next.kind = .keyword .default then s.exportDefault i
    else if next.kind.declaresVariables then s.exportVariables i keyword
    else if s.beginsFunction (i + 1) then
      s.functionDeclaration (i + 1) >>= exportDeclaration .function .functionNeedsName keyword
    else if next.kind = .keyword .«class» then
      s.classDeclaration (i + 1) >>= exportDeclaration .classBody .classNeedsName keyword
    else if next.kind = .openBrace then s.exportList i
    else if next.kind = .asterisk then
      let what := if s.tokens[i + 2]?.any (·.text = "as") then .exportAllAs else .exportAll
      .error ⟨.unsupported what, keyword.start⟩
    else refuseExport .expectedDeclaration next.start

theorem le_functionName (s : Stream) (i : Nat) : i ≤ s.functionName i := by
  have h₁ := s.le_optional (if s.isWordAt i "async" then i + 1 else i) (.keyword .function)
  have h₂ := s.le_optional
    (s.optional (if s.isWordAt i "async" then i + 1 else i) (.keyword .function)) .asterisk
  unfold functionName
  dsimp only
  split at h₁ <;> simp_all <;> omega

theorem lt_of_functionDeclaration {s : Stream} {i : Nat} {d : Declaration}
    (h : s.functionDeclaration i = .ok d) : i < d.next := by
  have h₁ := s.le_functionName i
  have h₂ := s.le_optional (s.functionName i) .identifier
  have h₃ := s.lt_skip (s.optional (s.functionName i) .identifier)
  simp only [functionDeclaration] at h
  split at h
  · cases h
  · split at h
    · cases h
    · split at h
      · cases h
      · rename_i hj
        have := lt_of_closer? hj
        cases h
        dsimp only
        omega

theorem lt_of_classDeclaration {s : Stream} {i : Nat} {d : Declaration}
    (h : s.classDeclaration i = .ok d) : i < d.next := by
  unfold classDeclaration at h
  split at h
  · cases h
  · rename_i hb
    have := le_of_classBody? hb
    have := s.le_optional (i + 1) .identifier
    split at h
    · cases h
    · rename_i hj
      have := lt_of_closer? hj
      cases h
      dsimp only
      omega

theorem lt_of_exportSpecifiers {s : Stream} {i j : Nat} {specifiers : List ExportSpecifier}
    (h : s.exportSpecifiers i = .ok (specifiers, j)) : i < j := by
  fun_induction exportSpecifiers s i generalizing specifiers j with
  | case1 => cases h; omega
  | case2 => cases h
  | case3 i _ _ _ _ ih =>
    obtain ⟨⟨rest, n⟩, hn, he⟩ := map_eq_ok_iff.1 h
    cases he
    have := ih hn
    have := s.lt_afterNames i
    omega
  | case4 i => cases h; have := s.lt_afterNames i; omega
  | case5 => cases h

theorem lt_of_exportList {s : Stream} {i j : Nat} {st : ExportStatement}
    (h : s.exportList i = .ok (st, j)) : i < j := by
  unfold exportList at h
  split at h
  · cases h
  · rename_i k hk
    have := lt_of_exportSpecifiers hk
    have := s.le_finish (s.skipAttributes (k + 2))
    have := s.le_skipAttributes (k + 2)
    have := s.le_finish k
    split at h
    · split at h
      · cases h
      · cases h; omega
    · split at h
      · cases h
      · cases h; omega

theorem lt_of_exportDefault {s : Stream} {i j : Nat} {st : ExportStatement}
    (h : s.exportDefault i = .ok (st, j)) : i < j := by
  unfold exportDefault at h
  dsimp only at h
  split at h
  · obtain ⟨d, hd, he⟩ := map_eq_ok_iff.1 h
    have := lt_of_functionDeclaration hd
    split at he <;> cases he <;> omega
  · split at h
    · obtain ⟨d, hd, he⟩ := map_eq_ok_iff.1 h
      have := lt_of_classDeclaration hd
      split at he <;> cases he <;> omega
    · split at h
      · cases h
      · have := s.le_expressionEnd (i + 2)
        have := s.le_finish (s.expressionEnd (i + 2))
        cases h
        omega

theorem lt_of_exportVariables {s : Stream} {i j : Nat} {keyword : Span} {st : ExportStatement}
    (h : s.exportVariables i keyword = .ok (st, j)) : i < j := by
  unfold exportVariables at h
  split at h
  · cases h
  · rename_i k hk
    have := lt_of_declarators hk
    have := s.le_finish k
    cases h
    omega

theorem lt_of_exportDeclaration {i j : Nat} {form : DeclarationForm}
    {unnamed : ExportFault} {keyword : Span} {st : ExportStatement} {d : Except Diagnostic Declaration}
    (hd : ∀ x, d = .ok x → i < x.next)
    (h : d >>= exportDeclaration form unnamed keyword = .ok (st, j)) : i < j := by
  cases d with
  | error => cases h
  | ok x =>
    have := hd x rfl
    change exportDeclaration form unnamed keyword x = .ok (st, j) at h
    unfold exportDeclaration at h
    split at h <;> cases h
    omega

theorem lt_of_exportStatement {s : Stream} {i j : Nat} {st : ExportStatement}
    (h : s.exportStatement i = .ok (st, j)) : i < j := by
  unfold exportStatement at h
  dsimp only at h
  split at h
  · cases h
  · split at h
    · exact lt_of_exportDefault h
    · split at h
      · exact lt_of_exportVariables h
      · split at h
        · exact Nat.lt_of_succ_lt
            (lt_of_exportDeclaration (fun _ hx => lt_of_functionDeclaration hx) h)
        · split at h
          · exact Nat.lt_of_succ_lt
              (lt_of_exportDeclaration (fun _ hx => lt_of_classDeclaration hx) h)
          · split at h
            · exact lt_of_exportList h
            · split at h <;> cases h

end Stream

end ModuleLowering
