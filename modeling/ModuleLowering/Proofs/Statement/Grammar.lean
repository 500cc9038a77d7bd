import ModuleLowering.Proofs.Statement.Phrases

namespace ModuleLowering

open Text

def ExportStatement.ofList (span : Span) (specifiers : List ExportSpecifier) : Option Specifier → ExportStatement
  | none => .names span specifiers
  | some specifier => .namesFrom span specifiers specifier

namespace Stream

variable {s : Stream}

inductive ImportItemAt (s : Stream) (i : Nat) : NamedImport → Nat → Prop
  | plain {name : String} (h : s.isWordAt i name) : ImportItemAt s i ⟨.identifier name, name⟩ (i + 1)
  | renamed {imported : ModuleName} {name : String} (h : s.NameAt i imported) (has : s.isWordAt (i + 1) "as")
      (hname : s.isWordAt (i + 2) name) : ImportItemAt s i ⟨imported, name⟩ (i + 3)

inductive ExportItemAt (s : Stream) (i : Nat) : ExportSpecifier → Nat → Prop
  | plain {name : ModuleName} (h : s.NameAt i name) : ExportItemAt s i ⟨name, name⟩ (i + 1)
  | renamed {source exported : ModuleName} (h : s.NameAt i source) (has : s.isWordAt (i + 1) "as")
      (hname : s.NameAt (i + 2) exported) : ExportItemAt s i ⟨source, exported⟩ (i + 3)

inductive ImportGroupAt (s : Stream) (i : Nat) : Option String → List NamedImport → Nat → Prop
  | star {name : String} (h : s.isAt i .asterisk) (has : s.isWordAt (i + 1) "as") (hname : s.isWordAt (i + 2) name) :
      ImportGroupAt s i (some name) [] (i + 3)
  | list {named : List NamedImport} {j : Nat} (h : s.isAt i .openBrace)
      (hlist : s.ListAt s.ImportItemAt (i + 1) named j) : ImportGroupAt s i none named j

inductive ImportClauseAt (s : Stream) (i : Nat) : ImportClause → Nat → Prop
  | bare (h : s.isAt i .string) : ImportClauseAt s i ⟨none, none, []⟩ i
  | name {name : String} (h : s.isWordAt i name) (hfrom : s.isWordAt (i + 1) "from") :
      ImportClauseAt s i ⟨some name, none, []⟩ (i + 2)
  | group {star : Option String} {named : List NamedImport} {j : Nat} (h : s.ImportGroupAt i star named j)
      (hfrom : s.isWordAt j "from") : ImportClauseAt s i ⟨none, star, named⟩ (j + 1)
  | both {name : String} {star : Option String} {named : List NamedImport} {j : Nat} (h : s.isWordAt i name)
      (hcomma : s.isAt (i + 1) .comma) (hgroup : s.ImportGroupAt (i + 2) star named j)
      (hfrom : s.isWordAt j "from") : ImportClauseAt s i ⟨some name, star, named⟩ (j + 1)

inductive ImportAt (s : Stream) (i : Nat) : ImportClause × Specifier → Nat → Prop
  | intro {clause : ImportClause} {specifier : Specifier} {j k stop : Nat}
      (hclause : s.ImportClauseAt (i + 1) clause j) (hspecifier : s.SpecifierAt j specifier)
      (hattributes : s.AttributesAt (j + 1) k) (hend : s.TerminatorAt k stop) : ImportAt s i (clause, specifier) stop

def IsLocalName (name : ModuleName) : Prop := ∃ text, name = .identifier text ∧ ∀ word : Keyword, word.spelling ≠ text

inductive ExportListAt (s : Stream) (i : Nat) : List ExportSpecifier × Option Specifier → Nat → Prop
  | own {specifiers : List ExportSpecifier} {j stop : Nat} (hlist : s.ListAt s.ExportItemAt (i + 2) specifiers j)
      (hfrom : ¬ s.isWordAt j "from") (hlocal : ∀ e ∈ specifiers, IsLocalName e.source)
      (hend : s.TerminatorAt j stop) : ExportListAt s i (specifiers, none) stop
  | foreign {specifiers : List ExportSpecifier} {specifier : Specifier} {j k stop : Nat}
      (hlist : s.ListAt s.ExportItemAt (i + 2) specifiers j) (hfrom : s.isWordAt j "from")
      (hspecifier : s.SpecifierAt (j + 1) specifier) (hattributes : s.AttributesAt (j + 2) k)
      (hend : s.TerminatorAt k stop) : ExportListAt s i (specifiers, some specifier) stop

theorem not_isRenamed_of_separates {i : Nat} (h : s.Separates (i + 1)) : ¬ s.isRenamed i := h.not_isWordAt "as"

theorem importItemAt_iff {i j : Nat} {x : NamedImport} (hj : s.Separates j) :
    s.ImportItemAt i x j ↔
      j = s.afterNames i ∧ s.NameAt i x.imported ∧ s.importedBinding i x.imported = .ok x.binding := by
  have hbinding (name : String) (imported : ModuleName) :
      s.importedBinding i imported = .ok name ↔ s.isWordAt (if s.isRenamed i then i + 2 else i) name := by
    rw [← identifier?_eq_some_iff, importedBinding]
    split
    · rename_i hname
      simp [hname]
    · rename_i hnone
      simp [hnone, refuseImport]
  rw [hbinding]
  constructor
  · intro h
    cases h with
    | plain h =>
      have hrenamed := not_isRenamed_of_separates hj
      rw [afterNames, if_neg hrenamed, if_neg hrenamed]
      exact ⟨rfl, .identifier h, h⟩
    | renamed h has hname =>
      have hrenamed : s.isRenamed i = true := has
      rw [afterNames, if_pos hrenamed, if_pos hrenamed]
      exact ⟨rfl, h, hname⟩
  · obtain ⟨imported, binding⟩ := x
    rintro ⟨rfl, hname, hword⟩
    dsimp only at hname hword
    by_cases hrenamed : s.isRenamed i
    · rw [if_pos hrenamed] at hword
      rw [afterNames, if_pos hrenamed]
      exact .renamed hname hrenamed hword
    · rw [if_neg hrenamed] at hword
      rw [afterNames, if_neg hrenamed]
      cases hname with
      | identifier h =>
        obtain ⟨t, ht, _, rfl⟩ := isWordAt_iff.1 h
        obtain ⟨u, hu, _, rfl⟩ := isWordAt_iff.1 hword
        obtain rfl : t = u := Option.some.inj (ht.symm.trans hu)
        exact .plain h
      | reserved ht hk =>
        cases kind_eq_of_isAt (isAt_of_isWordAt hword) (isAt_iff.2 ⟨_, ht, hk⟩)
      | literal ht hk =>
        cases kind_eq_of_isAt (isAt_of_isWordAt hword) (isAt_iff.2 ⟨_, ht, hk⟩)

theorem exportItemAt_iff {i j : Nat} {x : ExportSpecifier} (hj : s.Separates j) :
    s.ExportItemAt i x j ↔ j = s.afterNames i ∧ s.exportSpecifier i = .ok x := by
  constructor
  · intro h
    cases h with
    | plain h =>
      have hrenamed := not_isRenamed_of_separates hj
      rw [exportSpecifier, moduleName?_eq_some_iff.2 h, afterNames, if_neg hrenamed]
      exact ⟨rfl, if_neg hrenamed⟩
    | renamed h has hname =>
      have hrenamed : s.isRenamed i = true := has
      rw [exportSpecifier, moduleName?_eq_some_iff.2 h, moduleName?_eq_some_iff.2 hname, afterNames, if_pos hrenamed]
      exact ⟨rfl, if_pos hrenamed⟩
  · rintro ⟨rfl, h⟩
    unfold exportSpecifier at h
    split at h
    · cases h
    · rename_i hname
      rw [moduleName?_eq_some_iff] at hname
      by_cases hrenamed : s.isRenamed i
      · rw [if_pos hrenamed] at h
        rw [afterNames, if_pos hrenamed]
        split at h
        · rename_i hexported
          cases h
          exact .renamed hname hrenamed (moduleName?_eq_some_iff.1 hexported)
        · cases h
      · rw [if_neg hrenamed] at h
        rw [afterNames, if_neg hrenamed]
        cases h
        exact .plain hname

theorem namedImports_eq {i : Nat} {x : NamedImport} (hname : s.NameAt i x.imported)
    (hbinding : s.importedBinding i x.imported = .ok x.binding) :
    s.namedImports i =
      if s.isAt (s.afterNames i) .comma then
        (s.namedImports (s.afterNames i + 1)).map fun (rest, n) => (x :: rest, n)
      else if s.isAt (s.afterNames i) .closeBrace then .ok ([x], s.afterNames i + 1)
      else refuseImport .expectedSeparator (s.offsetAt (s.afterNames i)) := by
  rw [namedImports, if_neg hname.not_isAt]
  rw [← moduleName?_eq_some_iff] at hname
  split
  · rename_i hnone
    rw [hname] at hnone
    cases hnone
  · rename_i imported hsome
    obtain rfl : imported = x.imported := Option.some.inj (hsome.symm.trans hname)
    rw [hbinding]

theorem exportSpecifiers_eq {i : Nat} {x : ExportSpecifier} (hclose : ¬ s.isAt i .closeBrace)
    (hx : s.exportSpecifier i = .ok x) :
    s.exportSpecifiers i =
      if s.isAt (s.afterNames i) .comma then
        (s.exportSpecifiers (s.afterNames i + 1)).map fun (rest, n) => (x :: rest, n)
      else if s.isAt (s.afterNames i) .closeBrace then .ok ([x], s.afterNames i + 1)
      else refuseExport .expectedSeparator (s.offsetAt (s.afterNames i)) := by
  rw [exportSpecifiers, if_neg hclose]
  split
  · rename_i herror
    rw [hx] at herror
    cases herror
  · rename_i first hfirst
    obtain rfl : first = x := Except.ok.inj (hfirst.symm.trans hx)
    rfl

theorem ExportItemAt.not_isAt {i j : Nat} {x : ExportSpecifier} (h : s.ExportItemAt i x j) :
    ¬ s.isAt i .closeBrace := by
  cases h with
  | plain h => exact h.not_isAt
  | renamed h => exact h.not_isAt

theorem namedImports_eq_ok_iff {i j : Nat} {named : List NamedImport} :
    s.namedImports i = .ok (named, j) ↔ s.ListAt s.ImportItemAt i named j := by
  constructor
  · intro h
    fun_induction namedImports s i generalizing named j with
    | case1 i hclose =>
      cases h
      exact .close hclose
    | case2 => cases h
    | case3 => cases h
    | case4 i _ imported hname binding hb hcomma ih =>
      obtain ⟨⟨rest, n⟩, hrest, he⟩ := map_eq_ok_iff.1 h
      cases he
      refine .more ?_ hcomma (ih hrest)
      exact (importItemAt_iff (.inl hcomma)).2 ⟨rfl, moduleName?_eq_some_iff.1 hname, hb⟩
    | case5 i _ imported hname binding hb _ hclose =>
      cases h
      refine .last ?_ hclose
      exact (importItemAt_iff (.inr hclose)).2 ⟨rfl, moduleName?_eq_some_iff.1 hname, hb⟩
    | case6 => cases h
  · intro h
    induction h with
    | close h => rw [namedImports, if_pos h]
    | last hx h =>
      obtain ⟨rfl, hname, hbinding⟩ := (importItemAt_iff (.inr h)).1 hx
      rw [namedImports_eq hname hbinding, if_neg (not_isAt_of_isAt h (by decide)), if_pos h]
    | more hx hcomma _ ih =>
      obtain ⟨rfl, hname, hbinding⟩ := (importItemAt_iff (.inl hcomma)).1 hx
      rw [namedImports_eq hname hbinding, if_pos hcomma, ih]
      rfl

theorem exportSpecifiers_eq_ok_iff {i j : Nat} {specifiers : List ExportSpecifier} :
    s.exportSpecifiers i = .ok (specifiers, j) ↔ s.ListAt s.ExportItemAt i specifiers j := by
  constructor
  · intro h
    fun_induction exportSpecifiers s i generalizing specifiers j with
    | case1 i hclose =>
      cases h
      exact .close hclose
    | case2 => cases h
    | case3 i _ first hfirst hcomma ih =>
      obtain ⟨⟨rest, n⟩, hrest, he⟩ := map_eq_ok_iff.1 h
      cases he
      exact .more ((exportItemAt_iff (.inl hcomma)).2 ⟨rfl, hfirst⟩) hcomma (ih hrest)
    | case4 i _ first hfirst _ hclose =>
      cases h
      exact .last ((exportItemAt_iff (.inr hclose)).2 ⟨rfl, hfirst⟩) hclose
    | case5 => cases h
  · intro h
    induction h with
    | close h => rw [exportSpecifiers, if_pos h]
    | last hx h =>
      obtain ⟨rfl, hspecifier⟩ := (exportItemAt_iff (.inr h)).1 hx
      rw [exportSpecifiers_eq hx.not_isAt hspecifier, if_neg (not_isAt_of_isAt h (by decide)), if_pos h]
    | more hx hcomma _ ih =>
      obtain ⟨rfl, hspecifier⟩ := (exportItemAt_iff (.inl hcomma)).1 hx
      rw [exportSpecifiers_eq hx.not_isAt hspecifier, if_pos hcomma, ih]
      rfl

theorem importGroup_eq_ok_iff {i j : Nat} {star : Option String} {named : List NamedImport} :
    s.importGroup i = .ok ((star, named), j) ↔ s.ImportGroupAt i star named j := by
  constructor
  · intro h
    unfold importGroup at h
    split at h
    · rename_i hstar
      split at h
      · rename_i has
        split at h
        · rename_i hname
          cases h
          exact .star hstar has (identifier?_eq_some_iff.1 hname)
        · cases h
      · cases h
    · split at h
      · rename_i hopen
        obtain ⟨⟨named, n⟩, hlist, he⟩ := map_eq_ok_iff.1 h
        cases he
        exact .list hopen (namedImports_eq_ok_iff.1 hlist)
      · cases h
  · intro h
    cases h with
    | star h has hname => rw [importGroup, if_pos h, if_pos has, identifier?_eq_some_iff.2 hname]
    | list h hlist =>
      rw [importGroup, if_neg (not_isAt_of_isAt h (by decide)), if_pos h, namedImports_eq_ok_iff.2 hlist]
      rfl

theorem ImportGroupAt.identifier?_eq_none {i j : Nat} {star : Option String} {named : List NamedImport}
    (h : s.ImportGroupAt i star named j) : s.identifier? i = none := by
  rw [Option.eq_none_iff_forall_ne_some]
  intro name hname
  have hword := isAt_of_identifier? hname
  cases h with
  | star h => cases kind_eq_of_isAt h hword
  | list h => cases kind_eq_of_isAt h hword

theorem ImportGroupAt.not_isAt {i j : Nat} {star : Option String} {named : List NamedImport}
    (h : s.ImportGroupAt i star named j) : ¬ s.isAt i .string := by
  cases h with
  | star h => exact not_isAt_of_isAt h (by decide)
  | list h => exact not_isAt_of_isAt h (by decide)

theorem ImportClauseAt.of_importBindings {i j : Nat} {clause : ImportClause}
    (h : s.importBindings i = .ok (clause, j)) (hfrom : s.isWordAt j "from") : s.ImportClauseAt i clause (j + 1) := by
  unfold importBindings at h
  split at h
  · obtain ⟨⟨⟨star, named⟩, n⟩, hgroup, he⟩ := map_eq_ok_iff.1 h
    cases he
    exact .group (importGroup_eq_ok_iff.1 hgroup) hfrom
  · rename_i hname
    rw [identifier?_eq_some_iff] at hname
    split at h
    · rename_i hcomma
      obtain ⟨⟨⟨star, named⟩, n⟩, hgroup, he⟩ := map_eq_ok_iff.1 h
      cases he
      exact .both hname hcomma (importGroup_eq_ok_iff.1 hgroup) hfrom
    · cases h
      exact .name hname hfrom

theorem importClause_eq_ok_iff {i j : Nat} {clause : ImportClause} :
    s.importClause i = .ok (clause, j) ↔ s.ImportClauseAt i clause j := by
  constructor
  · intro h
    unfold importClause at h
    split at h
    · rename_i hstring
      cases h
      exact .bare hstring
    · split at h
      · cases h
      · rename_i hbindings
        split at h
        · rename_i hfrom
          cases h
          exact .of_importBindings hbindings hfrom
        · cases h
  · have hstring {k : Nat} {name : String} (h : s.isWordAt k name) : ¬ s.isAt k .string :=
      not_isAt_of_isAt (isAt_of_isWordAt h) (by decide)
    intro h
    cases h with
    | bare h =>
      rw [importClause, if_pos h]
      rfl
    | name h hfrom =>
      have hcomma : ¬ s.isAt (i + 1) .comma := not_isAt_of_isAt (isAt_of_isWordAt hfrom) (by decide)
      rw [importClause, if_neg (hstring h), importBindings, identifier?_eq_some_iff.2 h]
      dsimp only
      rw [if_neg hcomma]
      exact if_pos hfrom
    | group h hfrom =>
      rw [importClause, if_neg h.not_isAt, importBindings, h.identifier?_eq_none]
      dsimp only
      rw [importGroup_eq_ok_iff.2 h]
      exact if_pos hfrom
    | both h hcomma hgroup hfrom =>
      rw [importClause, if_neg (hstring h), importBindings, identifier?_eq_some_iff.2 h]
      dsimp only
      rw [if_pos hcomma, importGroup_eq_ok_iff.2 hgroup]
      exact if_pos hfrom

/-- Reading succeeds exactly where a phrase begins. All phrases that begin there say the same, and what is read is the
longest of them. -/
structure ReadsLongest {α β : Type} (read : Except Diagnostic (β × Nat)) (phrase : α → Nat → Prop)
    (result : α → Nat → β) : Prop where
  succeeds : (∃ r, read = .ok r) ↔ ∃ x stop, phrase x stop
  longest : ∀ r stop, read = .ok (r, stop) →
    ∃ x, phrase x stop ∧ r = result x stop ∧ ∀ y stop', phrase y stop' → y = x ∧ stop' ≤ stop

theorem ReadsLongest.of_reads {α β : Type} {read : Except Diagnostic (β × Nat)} {phrase : α → Nat → Prop}
    {result : α → Nat → β}
    (hsound : ∀ r stop, read = .ok (r, stop) → ∃ x, phrase x stop ∧ r = result x stop)
    (hcomplete : ∀ y stop', phrase y stop' → ∃ stop, read = .ok (result y stop, stop) ∧ stop' ≤ stop)
    (hunique : ∀ x y stop stop', phrase x stop → phrase y stop' → y = x) : ReadsLongest read phrase result where
  succeeds := by
    constructor
    · rintro ⟨⟨r, stop⟩, h⟩
      obtain ⟨x, hx, _⟩ := hsound r stop h
      exact ⟨x, stop, hx⟩
    · rintro ⟨y, stop', hy⟩
      obtain ⟨stop, h, _⟩ := hcomplete y stop' hy
      exact ⟨_, h⟩
  longest := by
    intro r stop h
    obtain ⟨x, hx, hr⟩ := hsound r stop h
    refine ⟨x, hx, hr, fun y stop' hy => ?_⟩
    obtain ⟨n, hn, hle⟩ := hcomplete y stop' hy
    rw [h] at hn
    cases hn
    exact ⟨hunique x y stop stop' hx hy, hle⟩

theorem SpecifierAt.unique {i : Nat} {x y : Specifier} (hx : s.SpecifierAt i x) (hy : s.SpecifierAt i y) : y = x := by
  rw [← specifier?_eq_some_iff] at hx hy
  exact Option.some.inj (hy.symm.trans hx)

theorem ImportAt.unique {i m n : Nat} {x y : ImportClause × Specifier} (hx : s.ImportAt i x m)
    (hy : s.ImportAt i y n) : y = x := by
  cases hx with
  | intro hclause hspecifier =>
    cases hy with
    | intro hclause' hspecifier' =>
      rw [← importClause_eq_ok_iff] at hclause hclause'
      cases hclause.symm.trans hclause'
      rw [hspecifier.unique hspecifier']

theorem WellFormed.readsLongest_importStatement {source : List Char} (hs : s.WellFormed source) (i : Nat) :
    ReadsLongest (s.importStatement i) (s.ImportAt i) fun x stop =>
      ⟨⟨s.offsetAt i, s.stopBefore stop⟩, x.2, x.1⟩ := by
  apply ReadsLongest.of_reads
  · intro st stop h
    unfold importStatement at h
    split at h
    · cases h
    · rename_i clause j hclause
      split at h
      · cases h
      · rename_i specifier hspecifier
        cases h
        refine ⟨(clause, specifier), ?_, rfl⟩
        exact .intro (importClause_eq_ok_iff.1 hclause) (specifier?_eq_some_iff.1 hspecifier)
          (hs.attributesAt_skipAttributes _) (terminatorAt_finish _)
  · intro y stop' h
    cases h with
    | intro hclause hspecifier hattributes hend =>
      refine ⟨_, ?_, hattributes.le_finish hend⟩
      rw [importStatement, importClause_eq_ok_iff.2 hclause]
      dsimp only
      rw [specifier?_eq_some_iff.2 hspecifier]
  · exact fun x y stop stop' => ImportAt.unique

theorem ofSpelling?_eq_none_iff {text : String} :
    Keyword.ofSpelling? text = none ↔ ∀ word : Keyword, word.spelling ≠ text := by
  rw [Keyword.ofSpelling?, List.find?_eq_none]
  constructor
  · intro h word heq
    exact h word (Keyword.mem_all word) (beq_iff_eq.2 heq)
  · intro h word _ heq
    exact h word (beq_iff_eq.1 heq)

theorem isLocalName_iff {name : ModuleName} :
    IsLocalName name ↔ ∃ text, name = .identifier text ∧ Keyword.ofSpelling? text = none := by
  simp only [IsLocalName, ofSpelling?_eq_none_iff]

theorem foreignName?_eq_none_iff {specifiers : List ExportSpecifier} :
    foreignName? specifiers = none ↔ ∀ e ∈ specifiers, IsLocalName e.source := by
  rw [foreignName?, List.find?_eq_none, List.forall_mem_map]
  apply forall₂_congr
  intro e _
  rw [isLocalName_iff]
  cases e.source with
  | identifier text => simp
  | literal => simp

theorem exportStatement_eq {i : Nat} (h : s.isAt (i + 1) .openBrace) : s.exportStatement i = s.exportList i := by
  obtain ⟨next, hnext, hk⟩ := isAt_iff.1 h
  have hfunction : s.beginsFunction (i + 1) = false := by
    simp [beginsFunction, isAt, kind?, isWordAt, Token.isWord, hnext, hk]
  unfold exportStatement
  rw [hnext]
  simp [hk, hfunction, Kind.declaresVariables]

theorem ExportListAt.unique {i m n : Nat} {x y : List ExportSpecifier × Option Specifier} (hx : s.ExportListAt i x m)
    (hy : s.ExportListAt i y n) : y = x := by
  have hlists {xs ys : List ExportSpecifier} {j k : Nat} (hxs : s.ListAt s.ExportItemAt (i + 2) xs j)
      (hys : s.ListAt s.ExportItemAt (i + 2) ys k) : ys = xs ∧ k = j := by
    rw [← exportSpecifiers_eq_ok_iff] at hxs hys
    cases hxs.symm.trans hys
    exact ⟨rfl, rfl⟩
  cases hx with
  | own hlist hfrom =>
    cases hy with
    | own hlist' =>
      rw [(hlists hlist hlist').1]
    | foreign hlist' hfrom' =>
      rw [(hlists hlist hlist').2] at hfrom'
      exact absurd hfrom' hfrom
  | foreign hlist hfrom hspecifier =>
    cases hy with
    | own hlist' hfrom' =>
      rw [(hlists hlist hlist').2] at hfrom'
      exact absurd hfrom hfrom'
    | foreign hlist' hfrom' hspecifier' =>
      obtain ⟨rfl, rfl⟩ := hlists hlist hlist'
      rw [hspecifier.unique hspecifier']

theorem WellFormed.readsLongest_exportList {source : List Char} (hs : s.WellFormed source) (i : Nat) :
    ReadsLongest (s.exportList i) (s.ExportListAt i) fun x stop =>
      .ofList ⟨s.offsetAt i, s.stopBefore stop⟩ x.1 x.2 := by
  apply ReadsLongest.of_reads
  · intro st stop h
    unfold exportList at h
    split at h
    · cases h
    · rename_i specifiers j hlist
      rw [exportSpecifiers_eq_ok_iff] at hlist
      split at h
      · rename_i hfrom
        split at h
        · cases h
        · rename_i specifier hspecifier
          cases h
          refine ⟨(specifiers, some specifier), ?_, rfl⟩
          exact .foreign hlist hfrom (specifier?_eq_some_iff.1 hspecifier) (hs.attributesAt_skipAttributes _)
            (terminatorAt_finish _)
      · rename_i hfrom
        split at h
        · cases h
        · rename_i hlocal
          cases h
          refine ⟨(specifiers, none), ?_, rfl⟩
          exact .own hlist hfrom (foreignName?_eq_none_iff.1 hlocal) (terminatorAt_finish _)
  · intro y stop' h
    cases h with
    | own hlist hfrom hlocal hend =>
      refine ⟨_, ?_, hend.le_finish⟩
      rw [exportList, exportSpecifiers_eq_ok_iff.2 hlist]
      dsimp only
      rw [if_neg hfrom, foreignName?_eq_none_iff.2 hlocal]
      rfl
    | foreign hlist hfrom hspecifier hattributes hend =>
      refine ⟨_, ?_, hattributes.le_finish hend⟩
      rw [exportList, exportSpecifiers_eq_ok_iff.2 hlist]
      dsimp only
      rw [if_pos hfrom, specifier?_eq_some_iff.2 hspecifier]
      rfl
  · exact fun x y stop stop' => ExportListAt.unique

/-- Import declarations and export lists are read by exactly their grammar. -/
theorem statements_follow_grammar {source : List Char} (hs : scan source = .ok s) {i : Nat} {first : Token}
    (hfirst : s.tokens[i]? = some first) :
    (first.kind = .keyword .«import» →
      ReadsLongest (s.importStatement i) (s.ImportAt i) fun x stop =>
        ⟨⟨first.start, s.stopBefore stop⟩, x.2, x.1⟩) ∧
    (first.kind = .keyword .«export» → s.isAt (i + 1) .openBrace →
      ReadsLongest (s.exportStatement i) (s.ExportListAt i) fun x stop =>
        .ofList ⟨first.start, s.stopBefore stop⟩ x.1 x.2) := by
  have hform := wellFormed_of_scan hs
  rw [← offsetAt_eq hfirst]
  constructor
  · intro _
    exact hform.readsLongest_importStatement i
  · intro _ hopen
    rw [exportStatement_eq hopen]
    exact hform.readsLongest_exportList i

theorem statements_follow_grammar_attributes :
    let source :=
      "import d, \x7b as as b, c, \x7d from 'm' with \x7b t: 'j' \x7d;\nexport \x7b b as default, c \x7d".toList
    let imported := (⟨some "d", none, [⟨.identifier "as", "b"⟩, ⟨.identifier "c", "c"⟩]⟩, ⟨"'m'", "m", ⟨31, 34⟩⟩)
    let exported := ([⟨.identifier "b", .identifier "default"⟩, ⟨.identifier "c", .identifier "c"⟩], none)
    ∃ s, scan source = .ok s ∧ s.ImportAt 0 imported 20 ∧ (∀ y stop, s.ImportAt 0 y stop → y = imported ∧ stop ≤ 20) ∧
      s.ExportListAt 20 exported 28 := by
  intro source imported exported
  obtain ⟨s, hs, h⟩ := exists_ok_of_test (x := scan source) (fun s =>
    s.tokens[0]?.any (·.kind = .keyword .«import») && s.tokens[20]?.any (·.kind = .keyword .«export») &&
      s.isAt 21 .openBrace &&
      (s.importStatement 0).toOption.any (· = (⟨⟨0, 51⟩, imported.2, imported.1⟩, 20)) &&
      (s.exportStatement 20).toOption.any (· = (.names ⟨52, 78⟩ exported.1, 28))) (by decide +kernel)
  simp only [Bool.and_eq_true] at h
  obtain ⟨⟨⟨⟨himport, hexport⟩, hopen⟩, hread⟩, hlist⟩ := h
  obtain ⟨t, ht, himport⟩ := (Option.any_eq_true _ _).1 himport
  obtain ⟨u, hu, hexport⟩ := (Option.any_eq_true _ _).1 hexport
  obtain ⟨⟨st, stop⟩, hread, h⟩ := exists_ok_of_test _ hread
  obtain ⟨⟨list, stop'⟩, hlist, h'⟩ := exists_ok_of_test _ hlist
  obtain ⟨rfl, rfl⟩ := Prod.mk.inj (of_decide_eq_true h)
  obtain ⟨rfl, rfl⟩ := Prod.mk.inj (of_decide_eq_true h')
  obtain ⟨⟨clause, specifier⟩, hx, heq, hmax⟩ :=
    ((statements_follow_grammar hs ht).1 (of_decide_eq_true himport)).longest _ _ hread
  obtain ⟨⟨specifiers, target⟩, hy, heq', -⟩ :=
    ((statements_follow_grammar hs hu).2 (of_decide_eq_true hexport) hopen).longest _ _ hlist
  rw [ImportStatement.mk.injEq] at heq
  obtain ⟨-, rfl, rfl⟩ := heq
  cases target with
  | some specifier => cases heq'
  | none =>
    rw [ExportStatement.ofList, ExportStatement.names.injEq] at heq'
    have hexported : exported = (specifiers, none) := Prod.ext heq'.2 rfl
    exact ⟨s, hs, hx, hmax, hexported ▸ hy⟩

end Stream

end ModuleLowering
