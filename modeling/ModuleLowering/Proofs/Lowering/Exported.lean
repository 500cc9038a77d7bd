import ModuleLowering.Proofs.Lowering.DefinedNames
import ModuleLowering.Proofs.Lowering.Failures
import ModuleLowering.Proofs.Statement.Elements
import ModuleLowering.Proofs.Statement.Grammar

namespace ModuleLowering

open Text Lexeme

namespace ExportStatement

def exportedNames : ExportStatement → List ModuleName
  | defaultExpression _ | defaultNamed .. | defaultAnonymous .. => [.identifier "default"]
  | variableList _ declarators _ => (declarators.flatMap (·.names)).map .identifier
  | declaration _ _ name _ => [.identifier name]
  | names _ specifiers | namesFrom _ specifiers _ => specifiers.map (·.exported)

theorem map_value_exportedNames (st : ExportStatement) : st.exportedNames.map (·.value) = st.entries.map (·.name) := by
  cases st with
  | variableList | names | namesFrom => simp [exportedNames, entries, ModuleName.value]
  | _ => rfl

def IsPlain (st : ExportStatement) : Prop := ∀ name, .identifier name ∈ st.exportedNames → '\\' ∉ name.toList

end ExportStatement

namespace Context

variable {x : Context}

theorem filterMap_definedName? {α : Type} {f : α → Line} (value : α → String) {xs : List α}
    (h : ∀ a ∈ xs, definedName? (f a).render = some (value a)) :
    (xs.map f).filterMap (fun line => definedName? line.render) = xs.map value := by
  rw [List.filterMap_map, ← List.filterMap_eq_map]
  exact List.filterMap_congr h

theorem definedNames_remove (span : Span) : (Change.remove span).definedNames = [] := rfl

theorem definedName?_assignName {name : String} (h : (ModuleName.identifier name).IsSpelled) :
    definedName? (assignName name).render = some name := Line.definedName?_assignment h name

theorem definedNames_initializerChange? {d : Declarator} (hsimple : d.simple → ∃ name, d.names = [name])
    (hspelled : ∀ name ∈ d.names, (ModuleName.identifier name).IsSpelled) :
    (initializerChange? d).toList.flatMap Change.definedNames ++ laterNames d = d.names := by
  obtain ⟨names, simple, equalsEnd⟩ := d
  cases simple with
  | false => rfl
  | true =>
    obtain ⟨name, rfl⟩ := hsimple rfl
    cases equalsEnd with
    | none => rfl
    | some stop =>
      have hname := Line.definedName?_initializer (hspelled name List.mem_cons_self)
      simp [initializerChange?, laterNames, Change.definedNames, Change.insert, hname, ModuleName.value]

theorem mem_names_of_laterNames {d : Declarator} {name : String} (h : name ∈ laterNames d) : name ∈ d.names := by
  unfold laterNames at h
  split at h
  · cases h
  · exact h

theorem definedNames_variableChanges {keyword : Span} {ds : List Declarator} {stop : Nat}
    (hsimple : ∀ d ∈ ds, d.simple → ∃ name, d.names = [name])
    (hspelled : ∀ name ∈ ds.flatMap (·.names), (ModuleName.identifier name).IsSpelled) :
    ((variableChanges keyword ds stop).flatMap Change.definedNames).Perm (ds.flatMap (·.names)) := by
  have hmem {d : Declarator} (hd : d ∈ ds) : ∀ name ∈ d.names, (ModuleName.identifier name).IsSpelled :=
    fun name hname => hspelled name (List.mem_flatMap.2 ⟨d, hd, hname⟩)
  have hlater : (if (ds.flatMap laterNames).isEmpty then [] else
      [Change.insert stop ((ds.flatMap laterNames).map assignName)]).flatMap Change.definedNames =
        ds.flatMap laterNames := by
    split
    · exact (List.isEmpty_iff.1 ‹_›).symm
    · rw [List.flatMap_singleton, Change.definedNames, Change.insert, filterMap_definedName? id, List.map_id]
      intro name hname
      obtain ⟨d, hd, hname⟩ := List.mem_flatMap.1 hname
      exact definedName?_assignName (hmem hd name (mem_names_of_laterNames hname))
  rw [variableChanges, List.flatMap_append, List.flatMap_cons, definedNames_remove, List.nil_append, hlater,
    List.filterMap_eq_flatMap_toList, List.flatMap_assoc]
  refine (List.flatMap_append_perm _ _ _).trans (List.Perm.of_eq (List.flatMap_congr fun d hd => ?_))
  exact definedNames_initializerChange? (hsimple d hd) (hmem hd)

theorem definedNames_getters {specifier : String} {offset : Nat} {specifiers : List ExportSpecifier}
    {getters : List Line} (h : specifiers.mapM (x.getterLine specifier offset) = .ok getters)
    (hspelled : ∀ e ∈ specifiers, e.exported.IsSpelled) :
    getters.filterMap (fun line => definedName? line.render) = specifiers.map (·.exported.value) := by
  induction specifiers generalizing getters with
  | nil =>
    cases h
    rfl
  | cons e specifiers ih =>
    obtain ⟨line, rest, hline, hrest, rfl⟩ := cons_of_mapM h
    rw [List.forall_mem_cons] at hspelled
    unfold getterLine at hline
    split at hline
    · cases hline
      rw [List.filterMap_cons, Line.definedName?_getter hspelled.1, ih hrest hspelled.2]
      rfl
    · cases hline

theorem definedNames_exportChanges {st : ExportStatement} {changes : List Change} (h : x.exportChanges st = .ok changes)
    (hsimple : ∀ keyword ds stop, st = .variableList keyword ds stop → ∀ d ∈ ds, d.simple → ∃ name, d.names = [name])
    (hspelled : ∀ n ∈ st.exportedNames, n.IsSpelled) :
    (changes.flatMap Change.definedNames).Perm (st.entries.map (·.name)) := by
  rw [← st.map_value_exportedNames]
  have hname {name : String} (hname : st.exportedNames = [.identifier name]) :
      (ModuleName.identifier name).IsSpelled := hspelled _ (hname ▸ List.mem_cons_self)
  cases st with
  | defaultExpression keywords =>
    cases h
    have hdefault := Line.definedName?_initializer (hname rfl)
    simp [Change.definedNames, hdefault, ExportStatement.exportedNames]
  | defaultNamed keywords name bodyEnd =>
    cases h
    have hdefault := Line.definedName?_assignment (hname rfl) name
    simp [Change.definedNames, Change.remove, Change.insert, hdefault, ExportStatement.exportedNames]
  | defaultAnonymous keywords bodyEnd =>
    cases h
    have hdefault := Line.definedName?_initializer (hname rfl)
    simp [Change.definedNames, hdefault, Line.definedName?_terminator, ExportStatement.exportedNames]
  | variableList keyword ds stop =>
    cases h
    refine (definedNames_variableChanges (hsimple _ _ _ rfl) fun name hmem => ?_).trans (.of_eq ?_)
    · exact hspelled _ (List.mem_map_of_mem hmem)
    · simp [ExportStatement.exportedNames, ModuleName.value, Function.comp_def]
  | declaration form keyword name bodyEnd =>
    cases h
    have hown := definedName?_assignName (hname rfl)
    simp [Change.definedNames, Change.remove, Change.insert, hown, ExportStatement.exportedNames, ModuleName.value]
  | names span specifiers =>
    cases h
    refine .of_eq ?_
    rw [List.flatMap_singleton, Change.definedNames, Change.replace,
      filterMap_definedName? fun e => e.exported.value, ExportStatement.exportedNames, List.map_map]
    · rfl
    · exact fun e he => Line.definedName?_assignment (hspelled _ (List.mem_map_of_mem he)) _
  | namesFrom span specifiers specifier =>
    obtain ⟨getters, hgetters, he⟩ := bind_eq_ok_iff.1 h
    cases he
    refine .of_eq ?_
    have hrequired : ((x.requirements.linesAt specifier.value span.start).getD []).filterMap
        (fun line => definedName? line.render) = [] :=
      List.filterMap_eq_nil_iff.2 fun line hline => Line.definedName?_linesAt hline
    rw [List.flatMap_singleton, Change.definedNames, Change.replace, List.filterMap_append, hrequired,
      List.nil_append, definedNames_getters hgetters fun e he => hspelled _ (List.mem_map_of_mem he)]
    simp [ExportStatement.exportedNames]

end Context

namespace Stream

variable {s : Stream} {source : List Char}

theorem isName_of_scan (hs : scan source = .ok s) {k : Nat} {t : Token} (ht : s.tokens[k]? = some t)
    (hk : t.kind.isIdentifierName) (hplain : '\\' ∉ t.text.toList) : IsName t.text.toList := by
  have hstring : t.kind ≠ .string := by
    intro hstring
    rw [hstring] at hk
    cases hk
  have hnames : t.kind.namesExport := by simp [Kind.namesExport, hk]
  cases nameText_of_scan hs ht hnames fun h => absurd h hstring with
  | literal h => exact absurd h hstring
  | name _ h => exact h hplain

theorem isSpelled_of_isWordAt (hs : scan source = .ok s) {k : Nat} {name : String} (h : s.isWordAt k name)
    (hplain : '\\' ∉ name.toList) : (ModuleName.identifier name).IsSpelled := by
  obtain ⟨t, ht, hk, rfl⟩ := isWordAt_iff.1 h
  exact .identifier (isName_of_scan hs ht (by rw [hk]; rfl) hplain)

theorem NameAt.isSpelled (hs : scan source = .ok s) {k : Nat} {n : ModuleName} (h : s.NameAt k n)
    (hnext : s.Separates (k + 1)) (hplain : ∀ name, n = .identifier name → '\\' ∉ name.toList) : n.IsSpelled := by
  cases h with
  | identifier h => exact isSpelled_of_isWordAt hs h (hplain _ rfl)
  | reserved ht hk => exact .identifier (isName_of_scan hs ht (by rw [hk]; rfl) (hplain _ rfl))
  | literal ht hk =>
    have hpart : ∃ u, s.tokens[k + 1]? = some u ∧ u.kind.isJsxPart = false := by
      rcases hnext with h | h
      all_goals
        obtain ⟨u, hu, hkind⟩ := isAt_iff.1 h
        exact ⟨u, hu, by rw [hkind]; rfl⟩
    cases nameText_of_scan hs ht (by simp [Kind.namesExport, hk]) fun _ => hpart with
    | literal _ h => exact .literal h
    | name hname =>
      rw [hk] at hname
      cases hname

theorem ListAt.exported {i j : Nat} {specifiers : List ExportSpecifier} (h : s.ListAt s.ExportItemAt i specifiers j) :
    ∀ e ∈ specifiers, ∃ k, s.NameAt k e.exported ∧ s.Separates (k + 1) := by
  have hitem {i j : Nat} {e : ExportSpecifier} (he : s.ExportItemAt i e j) (hj : s.Separates j) :
      ∃ k, s.NameAt k e.exported ∧ s.Separates (k + 1) := by
    cases he with
    | plain hname => exact ⟨i, hname, hj⟩
    | renamed _ _ hname => exact ⟨i + 2, hname, hj⟩
  induction h with
  | close => simp
  | last he hclose => exact List.forall_mem_singleton.2 (hitem he (.inr hclose))
  | more he hcomma _ ih => exact List.forall_mem_cons.2 ⟨hitem he (.inl hcomma), ih⟩

theorem names_of_declaratorTarget?_simple {i j : Nat} {names : List String}
    (h : s.declaratorTarget? i = some (names, true, j)) : ∃ name, names = [name] := by
  unfold declaratorTarget? at h
  split at h
  · cases h
  · split at h
    · cases h
      exact ⟨_, rfl⟩
    · obtain ⟨_, _, he⟩ := Option.map_eq_some_iff.1 h
      cases he
    · obtain ⟨_, _, he⟩ := Option.map_eq_some_iff.1 h
      cases he
    · cases h

theorem names_of_simple {i j : Nat} {ds : List Declarator} (h : s.declarators i = .ok (ds, j)) :
    ∀ d ∈ ds, d.simple → ∃ name, d.names = [name] := by
  have hfirst {i j : Nat} {names : List String} {simple : Bool}
      (ht : s.declaratorTarget? i = some (names, simple, j)) (hsimple : simple) : ∃ name, names = [name] := by
    rw [hsimple] at ht
    exact names_of_declaratorTarget?_simple ht
  fun_induction declarators s i generalizing ds j with
  | case1 => cases h
  | case2 => cases h
  | case3 i names simple n ht e k hi =>
    rename_i ih
    obtain ⟨⟨rest, n'⟩, hn, he⟩ := map_eq_ok_iff.1 h
    cases he
    exact List.forall_mem_cons.2 ⟨hfirst ht, ih hn⟩
  | case4 i names simple n ht =>
    cases h
    exact List.forall_mem_singleton.2 (hfirst ht)

theorem ReadsDeclaration.exists_isWordAt {i : Nat} {form : DeclarationForm} {d : Declaration} {name : String}
    (h : s.ReadsDeclaration i form d) (hname : d.name = some name) : ∃ k, s.isWordAt k name := by
  cases h with
  | function _ hd =>
    unfold functionDeclaration at hd
    dsimp only at hd
    split at hd
    · cases hd
    · split at hd
      · cases hd
      · split at hd <;> cases hd
        exact ⟨_, identifier?_eq_some_iff.1 hname⟩
  | classBody _ hd =>
    unfold classDeclaration at hd
    split at hd
    · cases hd
    · split at hd <;> cases hd
      exact ⟨_, identifier?_eq_some_iff.1 hname⟩

theorem ExportForm.isSpelled (hs : scan source = .ok s) {i j : Nat} {st : ExportStatement} (h : s.ExportForm i st j)
    (hplain : st.IsPlain) : ∀ n ∈ st.exportedNames, n.IsSpelled := by
  have hdefault : (ModuleName.identifier "default").IsSpelled := .identifier (Lexeme.isName_of_isAlpha (by simp))
  cases h with
  | defaultExpression | defaultNamed | defaultAnonymous => exact List.forall_mem_singleton.2 hdefault
  | variableList _ _ hd =>
    intro n hn
    obtain ⟨name, hname, rfl⟩ := List.mem_map.1 hn
    have hplain := hplain name hn
    rw [names_eq hd] at hname
    obtain ⟨e, _, hname⟩ := List.mem_filterMap.1 hname
    exact isSpelled_of_isWordAt hs (identifier?_eq_some_iff.1 hname) hplain
  | declaration hd hname =>
    obtain ⟨k, hword⟩ := hd.exists_isWordAt hname
    exact List.forall_mem_singleton.2 (isSpelled_of_isWordAt hs hword (hplain _ List.mem_cons_self))
  | names _ hl | namesFrom _ hl =>
    intro n hn
    obtain ⟨e, he, rfl⟩ := List.mem_map.1 hn
    obtain ⟨k, hname, hnext⟩ := (exportSpecifiers_eq_ok_iff.1 hl).exported e he
    exact hname.isSpelled hs hnext fun name heq => hplain name (heq ▸ hn)

theorem ExportForm.definedNames (hs : scan source = .ok s) {i j : Nat} {st : ExportStatement} (h : s.ExportForm i st j)
    (hplain : st.IsPlain) {x : Context} {changes : List Change} (hchanges : x.exportChanges st = .ok changes) :
    (changes.flatMap Change.definedNames).Perm (st.entries.map (·.name)) := by
  refine Context.definedNames_exportChanges hchanges (fun keyword ds stop heq => ?_) (h.isSpelled hs hplain)
  cases h <;> cases heq
  exact names_of_simple ‹_›

theorem exists_exportForm {m : SourceModule} (hm : s.toModule = .ok m) {st : ExportStatement}
    (hst : .exports st ∈ m.items) : ∃ i j, s.ExportForm i st j := by
  obtain ⟨_, rs, hrs⟩ := readings_of_toModule hm
  rw [hrs.items_eq] at hst
  obtain ⟨r, hr, heq⟩ := List.mem_map.1 hst
  cases hrs.reads r hr with
  | imports => cases heq
  | exports _ _ _ hform =>
    cases heq
    exact ⟨_, _, hform⟩

end Stream

theorem suffixFor?_eq (entries : List ExportEntry) :
    suffixFor? entries = if entries.map (·.name) = ["default"] then some moduleExportsSuffix else none := by
  unfold suffixFor?
  split
  · simp
  · rename_i hnot
    refine (if_neg fun h => ?_).symm
    obtain ⟨only, rfl, _⟩ := List.map_eq_singleton_iff.1 h
    exact hnot only rfl

theorem definedNames_importChange (x : Context) (st : ImportStatement) : (x.importChange st).definedNames = [] :=
  List.filterMap_eq_nil_iff.2 fun _ hline => Line.definedName?_linesAt hline

theorem definedNames_itemChanges {source : List Char} {s : Stream} (hs : scan source = .ok s) {x : Context}
    {items : List ModuleItem} (hforms : ∀ st, .exports st ∈ items → ∃ i j, s.ExportForm i st j)
    (hplain : ∀ st, .exports st ∈ items → st.IsPlain) {changes : List (List Change)}
    (h : items.mapM x.itemChanges = .ok changes) (bindings : Bindings) :
    (changes.flatten.flatMap Change.definedNames).Perm ((SourceModule.mk bindings items).entries.map (·.name)) := by
  induction items generalizing changes with
  | nil =>
    cases h
    exact .nil
  | cons item items ih =>
    obtain ⟨first, rest, hfirst, hrest, rfl⟩ := cons_of_mapM h
    have hlater := ih (fun st hst => hforms st (List.mem_cons_of_mem _ hst))
      (fun st hst => hplain st (List.mem_cons_of_mem _ hst)) hrest
    rw [List.flatten_cons, List.flatMap_append, SourceModule.entries, List.flatMap_cons, List.map_append]
    refine .append ?_ hlater
    cases item with
    | imports st =>
      cases hfirst
      rw [List.flatMap_singleton, definedNames_importChange]
      exact .nil
    | exports st =>
      obtain ⟨i, j, hform⟩ := hforms st List.mem_cons_self
      exact hform.definedNames hs (hplain st List.mem_cons_self) hfirst

/-- The code of an export statement defines the names that the statement exports, each as often, if none of them is
written with an escape. The suffix for a default export is then decided by what the statements define. -/
theorem exports_written {source : List Char} {s : Stream} {m : SourceModule} (hs : scan source = .ok s)
    (hm : s.toModule = .ok m) :
    let x := Context.ofModule source s m true
    (∀ st, .exports st ∈ m.items → ∃ changes, x.exportChanges st = .ok changes ∧
      (st.IsPlain → (changes.flatMap Change.definedNames).Perm (st.entries.map (·.name)))) ∧
    ∃ changes, m.items.mapM x.itemChanges = .ok changes ∧ ((∀ st, .exports st ∈ m.items → st.IsPlain) →
      suffixFor? m.entries =
        if changes.flatten.flatMap Change.definedNames = ["default"] then some moduleExportsSuffix else none) := by
  intro x
  have hnamed := Requirements.named_allocate m.items (.ofStream s)
  have hchanges {st : ExportStatement} (hst : .exports st ∈ m.items) := Context.exists_exportChanges (x := x) hnamed hst
  constructor
  · intro st hst
    obtain ⟨changes, h⟩ := hchanges hst
    obtain ⟨i, j, hform⟩ := Stream.exists_exportForm hm hst
    exact ⟨changes, h, fun hplain => hform.definedNames hs hplain h⟩
  · have hitems : ∀ item ∈ m.items, ∃ changes, x.itemChanges item = .ok changes ∧ True := by
      intro item hitem
      cases item with
      | imports st => exact ⟨_, rfl, trivial⟩
      | exports st => exact (hchanges hitem).imp fun _ h => ⟨h, trivial⟩
    obtain ⟨changes, h, _⟩ := exists_mapM_eq_ok (P := fun _ => True) hitems
    refine ⟨changes, h, fun hplain => ?_⟩
    have hperm := definedNames_itemChanges hs (fun _ => Stream.exists_exportForm hm) hplain h m.bindings
    rw [suffixFor?_eq]
    refine if_congr ?_ rfl rfl
    rw [← List.perm_singleton, ← List.perm_singleton]
    exact ⟨hperm.trans, hperm.symm.trans⟩

theorem exports_written_declarators :
    let source := "export const \x7b a, b: [c] \x7d = o, d = 1;\nexport \x7b a as 'x-y' \x7d from 'm';".toList
    ∃ s m st st' changes changes', scan source = .ok s ∧ s.toModule = .ok m ∧ m.items = [.exports st, .exports st'] ∧
      (Context.ofModule source s m true).exportChanges st = .ok changes ∧
      (changes.flatMap Change.definedNames).Perm ["a", "c", "d"] ∧
      (Context.ofModule source s m true).exportChanges st' = .ok changes' ∧
      (changes'.flatMap Change.definedNames).Perm ["x-y"] := by
  intro source
  obtain ⟨s, m, hs, hm, h⟩ := exists_of_acceptsModule source (fun _ m => decide (m.items =
    [.exports (.variableList ⟨0, 6⟩ [⟨["a", "c"], false, some 28⟩, ⟨["d"], true, some 35⟩] 38),
      .exports (.namesFrom ⟨39, 70⟩ [⟨.identifier "a", .literal "'x-y'" "x-y"⟩] ⟨"'m'", "m", ⟨66, 69⟩⟩)]))
    (by decide +kernel)
  have hitems := of_decide_eq_true h
  have hletters : ∀ name ∈ ["a", "c", "d"], '\\' ∉ name.toList := by decide +kernel
  have hwritten := (exports_written hs hm).1
  obtain ⟨changes, hchanges, hperm⟩ := hwritten _ (hitems ▸ List.mem_cons_self)
  obtain ⟨changes', hchanges', hperm'⟩ := hwritten _ (hitems ▸ List.mem_cons_of_mem _ List.mem_cons_self)
  refine ⟨s, m, _, _, changes, changes', hs, hm, hitems, hchanges, hperm ?_, hchanges', hperm' ?_⟩
  · intro name hname
    obtain ⟨letter, hmem, he⟩ := List.mem_map.1 hname
    cases he
    exact hletters name hmem
  · intro name hname
    cases List.mem_singleton.1 hname

/-- A name that is written with an escape becomes a string whose value is another name, here that of the default
export. -/
theorem escaped_default_written :
    let source := "export \x7b x as d\\u0065fault \x7d from 'm';\n".toList
    ∃ s m st changes, scan source = .ok s ∧ s.toModule = .ok m ∧ m.items = [.exports st] ∧
      (Context.ofModule source s m true).exportChanges st = .ok changes ∧
      ¬ (changes.flatMap Change.definedNames).Perm (st.entries.map (·.name)) ∧
      changes.flatMap Change.definedNames = ["default"] ∧ suffixFor? m.entries = none := by
  intro source
  let st : ExportStatement :=
    .namesFrom ⟨0, 38⟩ [⟨.identifier "x", .identifier "d\\u0065fault"⟩] ⟨"'m'", "m", ⟨34, 37⟩⟩
  obtain ⟨s, m, hs, hm, h⟩ := exists_of_acceptsModule source (fun s m =>
    decide (m.items = [.exports st]) && (suffixFor? m.entries).isNone &&
      ((Context.ofModule source s m true).exportChanges st).toOption.any
        fun changes => changes.flatMap Change.definedNames = ["default"]) (by decide +kernel)
  simp only [Bool.and_eq_true, decide_eq_true_eq, Option.isNone_iff_eq_none] at h
  obtain ⟨⟨hitems, hsuffix⟩, h⟩ := h
  obtain ⟨changes, hchanges, h⟩ := exists_ok_of_test _ h
  have hdefined := of_decide_eq_true h
  refine ⟨s, m, st, changes, hs, hm, hitems, hchanges, ?_, hdefined, hsuffix⟩
  rw [hdefined]
  decide

end ModuleLowering
