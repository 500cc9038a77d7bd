import ModuleLowering.Proofs.SourceModule.Introduced

namespace ModuleLowering

namespace Stream

inductive Declares (s : Stream) (i : Nat) (t : Token) (name : String) : Prop
  | named (hk : t.kind = .keyword .function ∨ t.kind = .keyword .«class»)
      (hname : s.identifier? (s.optional (i + 1) .asterisk) = some name) : Declares s i t name
  | variableList {ds : List Declarator} {j : Nat} {d : Declarator} (hk : t.kind.declaresVariables)
      (hds : s.declarators (i + 1) = .ok (ds, j)) (hd : d ∈ ds) (hname : name ∈ d.names) : Declares s i t name
  | exported {st : ExportStatement} {j : Nat} (hk : t.kind = .keyword .«export»)
      (hst : s.exportStatement i = .ok (st, j)) (hname : name ∈ st.declaredNames) : Declares s i t name

def DeclaresBefore (s : Stream) (stop : Nat) (name : String) : Prop :=
  ∃ i m t, i < stop ∧ s.Comes i m ∧ s.tokens[i]? = some t ∧ t.isTopLevel ∧ s.Declares i t name

inductive ReadsOn (s : Stream) : Nat → List ModuleItem → Prop
  | start : ReadsOn s 0 []
  | inner {i : Nat} {items : List ModuleItem} {t : Token} (h : ReadsOn s i items) (ht : s.tokens[i]? = some t)
      (htop : t.isTopLevel = false) : ReadsOn s (i + 1) items
  | other {i : Nat} {items : List ModuleItem} {t : Token} (h : ReadsOn s i items) (ht : s.tokens[i]? = some t)
      (htop : t.isTopLevel) (hkey : s.isStatementKeyword i t = false) : ReadsOn s (s.declaredAt i t.kind).2 items
  | imports {i j : Nat} {items : List ModuleItem} {t : Token} {st : ImportStatement} (h : ReadsOn s i items)
      (ht : s.tokens[i]? = some t) (hkey : s.isStatementKeyword i t) (hk : t.kind = .keyword .«import»)
      (hst : s.importStatement i = .ok (st, j)) : ReadsOn s j (items ++ [.imports st])
  | exports {i j : Nat} {items : List ModuleItem} {t : Token} {st : ExportStatement} (h : ReadsOn s i items)
      (ht : s.tokens[i]? = some t) (htop : t.isTopLevel) (hk : t.kind = .keyword .«export»)
      (hst : s.exportStatement i = .ok (st, j)) : ReadsOn s j (items ++ [.exports st])

variable {s : Stream}

section Visit

variable {i j : Nat} {t : Token} {m n : SourceModule} {name : String}

theorem visit_inner (htop : t.isTopLevel = false) : s.visit i t m = .ok (m, i + 1) := by
  rw [visit, htop]
  rfl

theorem visit_imports {st : ImportStatement} (hkey : s.isStatementKeyword i t) (hk : t.kind = .keyword .«import»)
    (hst : s.importStatement i = .ok (st, j)) : s.visit i t m = (m.addImport st).map fun n => (n, j) := by
  have hcall : s.isImportExpression i = false := by
    simpa [isStatementKeyword, hk] using (Bool.and_eq_true_iff.1 hkey).2
  simp [visit, (Bool.and_eq_true_iff.1 hkey).1, hk, hcall, hst]

theorem visit_exports (htop : t.isTopLevel) (hk : t.kind = .keyword .«export») :
    s.visit i t m = (s.exportStatement i).map fun (st, j) => (m.addExport st, j) := by
  simp [visit, htop, hk]

theorem visit_other (htop : t.isTopLevel) (hkey : s.isStatementKeyword i t = false) :
    s.visit i t m = .ok (m.declareAll (s.declaredAt i t.kind).1, (s.declaredAt i t.kind).2) := by
  rw [isStatementKeyword, htop, Bool.true_and, Bool.or_eq_false_iff] at hkey
  rw [visit, htop, if_neg (by simp), if_neg (by simp [hkey.2]), if_neg (of_decide_eq_false hkey.1)]

theorem declares_iff_of_exports {st : ExportStatement} (hk : t.kind = .keyword .«export»)
    (hst : s.exportStatement i = .ok (st, j)) : s.Declares i t name ↔ name ∈ st.declaredNames := by
  refine ⟨fun h => ?_, .exported hk hst⟩
  cases h with
  | named hk' => rcases hk' with hk' | hk' <;> rw [hk] at hk' <;> cases hk'
  | variableList hk' =>
    rw [hk] at hk'
    cases hk'
  | exported _ hst' hname =>
    rw [hst] at hst'
    cases hst'
    exact hname

theorem declares_iff_of_not_exports (hk : t.kind ≠ .keyword .«export») :
    s.Declares i t name ↔ name ∈ (s.declaredAt i t.kind).1 := by
  unfold declaredAt
  constructor
  · intro h
    cases h with
    | named hkind hname => rcases hkind with hkind | hkind <;> simp [hkind, hname]
    | @variableList ds j d hkind hds hd hname =>
      split
      · rename_i hnamed
        simp only [Bool.or_eq_true, decide_eq_true_eq] at hnamed
        rcases hnamed with hnamed | hnamed <;> rw [hnamed] at hkind <;> cases hkind
      · rw [hds]
        exact List.mem_flatMap.2 ⟨d, hd, hname⟩
    | exported hkind => exact absurd hkind hk
  · intro hname
    split at hname
    · rename_i hkind
      refine .named (by simpa using hkind) ?_
      simpa using hname
    · split at hname
      · rename_i hkind
        split at hname
        · rename_i ds j hds
          obtain ⟨d, hd, hname⟩ := List.mem_flatMap.1 hname
          exact .variableList hkind hds hd hname
        · cases hname
      · cases hname

theorem exists_of_visit (h : s.visit i t m = .ok (n, j)) : ∃ new, n.items = m.items ++ new ∧
    (∀ name, name ∈ n.bindings.names ↔
      name ∈ m.bindings.names ∨ name ∈ introducedNames new ∨ (t.isTopLevel ∧ s.Declares i t name)) ∧
    (m.bindings.names.Nodup → n.bindings.names.Nodup) := by
  by_cases hexports : t.isTopLevel ∧ t.kind = .keyword .«export»
  · rw [visit_exports hexports.1 hexports.2] at h
    obtain ⟨⟨st, k⟩, hst, he⟩ := map_eq_ok_iff.1 h
    cases he
    refine ⟨[.exports st], rfl, fun name => ?_, fun hm => Bindings.nodup_names_declareAll hm _⟩
    rw [declares_iff_of_exports hexports.2 hst, SourceModule.addExport, Bindings.mem_names_declareAll]
    simp [introducedNames, hexports.1]
  · cases visitForm_of_visit h with
    | inner htop => exact ⟨[], (List.append_nil _).symm, by simp [introducedNames, htop], id⟩
    | @imports st _ _ htop hk _ hst hn =>
      obtain ⟨b, hb, rfl⟩ := map_eq_ok_iff.1 hn
      have hnames := Bindings.names_bindImports hb
      have hnone (name : String) : ¬ s.Declares i t name := by
        rw [declares_iff_of_not_exports (by simp [hk]), hk]
        exact List.not_mem_nil
      refine ⟨[.imports st], rfl, fun name => ?_, fun hm => ?_⟩
      · rw [hnames, Bindings.mem_names_declareAll]
        simp [hnone]
      · rw [hnames]
        exact Bindings.nodup_names_declareAll hm _
    | exports htop hk => exact absurd ⟨htop, hk⟩ hexports
    | declares htop hk =>
      refine ⟨[], (List.append_nil _).symm, fun name => ?_, fun hm => Bindings.nodup_names_declareAll hm _⟩
      rw [declares_iff_of_not_exports hk, SourceModule.declareAll, Bindings.mem_names_declareAll]
      simp [introducedNames, htop]

end Visit

theorem declaresBefore_of_visits {i : Nat} {m : SourceModule} {q : Nat × SourceModule} {t : Token} (hi : s.Comes i m)
    (hq : s.Visits (i, m) q) (ht : s.tokens[i]? = some t) (name : String) :
    s.DeclaresBefore q.1 name ↔ s.DeclaresBefore i name ∨ (t.isTopLevel ∧ s.Declares i t name) := by
  constructor
  · rintro ⟨k, n, u, hkq, hk, hu, hdeclares⟩
    rcases hi.lt_or_eq hq hk hkq with hki | rfl
    · exact .inl ⟨k, n, u, hki, hk, hu, hdeclares⟩
    · rw [ht] at hu
      cases hu
      exact .inr hdeclares
  · rintro (⟨k, n, u, hki, hk⟩ | hdeclares)
    · exact ⟨k, n, u, Nat.lt_trans hki hq.lt, hk⟩
    · exact ⟨i, m, t, hq.lt, hi, ht, hdeclares⟩

structure Tabulates (s : Stream) (i : Nat) (m : SourceModule) : Prop where
  mem : ∀ name, name ∈ m.bindings.names ↔ name ∈ introducedNames m.items ∨ s.DeclaresBefore i name
  nodup : m.bindings.names.Nodup

theorem tabulates_zero (s : Stream) : s.Tabulates 0 .empty where
  mem := by simp [SourceModule.empty, Bindings.empty, Bindings.names, introducedNames, DeclaresBefore]
  nodup := List.nodup_nil

theorem Tabulates.visits {i : Nat} {m : SourceModule} {q : Nat × SourceModule} (h : s.Tabulates i m)
    (hi : s.Comes i m) (hq : s.Visits (i, m) q) : s.Tabulates q.1 q.2 := by
  obtain ⟨t, ht, hv⟩ := id hq
  obtain ⟨new, hitems, hmem, hnodup⟩ := exists_of_visit hv
  refine ⟨fun name => ?_, hnodup h.nodup⟩
  rw [hmem, h.mem, hitems, introducedNames_append, List.mem_append, declaresBefore_of_visits hi hq ht]
  simp only [or_assoc, or_left_comm]

theorem Comes.tabulates {i : Nat} {m : SourceModule} (h : s.Comes i m) : s.Tabulates i m := by
  unfold Comes at h
  generalize hp : (i, m) = p at h
  induction h generalizing i m with
  | refl =>
    cases hp
    exact s.tabulates_zero
  | tail hwalk hstep ih =>
    cases hp
    exact (ih rfl).visits hwalk hstep

theorem moduleFrom_eq {i : Nat} {t : Token} (ht : s.tokens[i]? = some t) (m : SourceModule) :
    s.moduleFrom i m = (s.visit i t m).bind fun (n, j) => s.moduleFrom j n := by
  rw [moduleFrom]
  split
  · rename_i hnone
    rw [ht] at hnone
    cases hnone
  · rename_i u hu
    rw [ht] at hu
    cases hu
    split
    · rename_i hv
      rw [hv]
      rfl
    · rename_i hv
      rw [hv]
      rfl

theorem Comes.toModule_eq {i : Nat} {m : SourceModule} (h : s.Comes i m) : s.toModule = s.moduleFrom i m := by
  unfold Comes at h
  generalize hp : (i, m) = p at h
  induction h generalizing i m with
  | refl =>
    cases hp
    rfl
  | tail hwalk hstep ih =>
    cases hp
    obtain ⟨t, ht, hv⟩ := hstep
    rw [ih rfl, moduleFrom_eq ht, hv]
    rfl

theorem Comes.toModule_error {i : Nat} {m : SourceModule} {t : Token} {e : Diagnostic} (h : s.Comes i m)
    (ht : s.tokens[i]? = some t) (hv : s.visit i t m = .error e) : s.toModule = .error e := by
  rw [h.toModule_eq, moduleFrom_eq ht, hv]
  rfl

theorem ReadsOn.comes_or_fails {i : Nat} {items : List ModuleItem} (h : s.ReadsOn i items) :
    (∃ m, s.Comes i m ∧ m.items = items) ∨
      ∃ st name, RepeatsFirst items st name ∧
        s.toModule = .error ⟨.malformedImport (.importedTwice name), st.span.start⟩ := by
  induction h with
  | start => exact .inl ⟨.empty, s.comes_zero, rfl⟩
  | inner _ ht htop ih => exact ih.imp (fun ⟨m, hm, hitems⟩ => ⟨m, hm.tail ⟨_, ht, visit_inner htop⟩, hitems⟩) id
  | other _ ht htop hkey ih =>
    exact ih.imp (fun ⟨m, hm, hitems⟩ => ⟨_, hm.tail ⟨_, ht, visit_other htop hkey⟩, hitems⟩) id
  | @imports i j items t st _ ht hkey hk hst ih =>
    rcases ih with ⟨m, hm, rfl⟩ | ⟨st', name, hfirst, herror⟩
    · have hbinds := binds_of_comes hm
      have hv := visit_imports (m := m) hkey hk hst
      rcases hbinds.addImport_cases st with ⟨n, hn, hitems⟩ | ⟨name, hname, hcount, herror⟩
      · rw [hn] at hv
        exact .inl ⟨n, hm.tail ⟨t, ht, hv⟩, hitems⟩
      · rw [herror] at hv
        have hnodup := hbinds.nodup
        rw [map_fst_importedNames] at hnodup
        exact .inr ⟨st, name, ⟨⟨m.items, [], rfl, hnodup, hcount⟩, hname⟩, hm.toModule_error ht hv⟩
    · exact .inr ⟨st', name, hfirst.append _, herror⟩
  | @exports i j items t st _ ht htop hk hst ih =>
    rcases ih with ⟨m, hm, rfl⟩ | ⟨st', name, hfirst, herror⟩
    · have hv : s.visit i t m = .ok (m.addExport st, j) := by rw [visit_exports htop hk, hst]; rfl
      exact .inl ⟨_, hm.tail ⟨t, ht, hv⟩, rfl⟩
    · exact .inr ⟨st', name, hfirst.append _, herror⟩

def DeclaresName (s : Stream) (name : String) : Prop :=
  ∃ i m t, s.Comes i m ∧ s.tokens[i]? = some t ∧ t.isTopLevel ∧ s.Declares i t name

/-- The table of a module: imported names stand in it with their origin, whatever else declares them. -/
structure TableOf (s : Stream) (m : SourceModule) : Prop where
  introduced_once : (introducedNames m.items).Nodup
  imported : ∀ st name what, .imports st ∈ m.items → st.Introduces name what →
    m.bindings.find? name = some ⟨name, some ⟨st.specifier.value, what⟩⟩
  declared : ∀ name, (∀ st what, .imports st ∈ m.items → ¬ st.Introduces name what) → s.DeclaresName name →
    m.bindings.find? name = some ⟨name, none⟩
  unknown : ∀ name, (∀ st what, .imports st ∈ m.items → ¬ st.Introduces name what) → ¬ s.DeclaresName name →
    m.bindings.find? name = none
  names_once : m.bindings.names.Nodup

theorem tableOf_of_toModule {s : Stream} {m : SourceModule} (h : s.toModule = .ok m) : s.TableOf m := by
  obtain ⟨stop, hcomes, hstop⟩ := comes_of_toModule h
  have hbinds := binds_of_comes hcomes
  have htab := hcomes.tabulates
  have hdeclares (name : String) : s.DeclaresBefore stop name ↔ s.DeclaresName name := by
    refine ⟨fun ⟨i, m, t, _, h⟩ => ⟨i, m, t, h⟩, fun ⟨i, m, t, hi, ht, h⟩ => ⟨i, m, t, ?_, hi, ht, h⟩⟩
    exact Nat.lt_of_lt_of_le (lt_size_of_getElem? ht) hstop
  have hintroduced {name : String} (h : ∀ st what, .imports st ∈ m.items → ¬ st.Introduces name what) :
      name ∉ introducedNames m.items := fun hmem =>
    have ⟨st, what, hst, hintro⟩ := mem_introducedNames_iff.1 hmem
    h st what hst hintro
  refine ⟨?_, ?_, ?_, ?_, htab.nodup⟩
  · have hnodup := hbinds.nodup
    rwa [map_fst_importedNames] at hnodup
  · intro st name what hst hintro
    have hmem : (name, ⟨st.specifier.value, what⟩) ∈ importedNames m.items :=
      List.mem_flatMap.2 ⟨.imports st, hst, hintro.mem_origins⟩
    exact Bindings.find?_of_origin? (hbinds.origin _ hmem)
  · intro name hname hdeclared
    have hmem := (htab.mem name).2 (.inr ((hdeclares name).2 hdeclared))
    obtain ⟨⟨found, origin⟩, hfound⟩ := Option.isSome_iff_exists.1 (Bindings.isSome_find?_iff.2 hmem)
    cases Bindings.name_of_find? hfound
    cases origin with
    | none => exact hfound
    | some o =>
      have ho := hbinds.mem_of_origin? (Bindings.origin?_of_find? hfound)
      have hmem := List.mem_map_of_mem (f := Prod.fst) ho
      rw [map_fst_importedNames] at hmem
      exact absurd hmem (hintroduced hname)
  · intro name hname hdeclared
    rw [Bindings.find?_eq_none_iff, htab.mem, hdeclares]
    exact fun hmem => hmem.elim (hintroduced hname) hdeclared

/-- The statements of a module introduce each name once, and its table has them all. Of statements that introduce a
name twice, the first to do so is the error. -/
theorem module_table (s : Stream) : (∀ m, s.toModule = .ok m → s.TableOf m) ∧
    ∀ i items, s.ReadsOn i items → ¬ (introducedNames items).Nodup → ∃ st name, RepeatsFirst items st name ∧
      s.toModule = .error ⟨.malformedImport (.importedTwice name), st.span.start⟩ := by
  refine ⟨fun _ => tableOf_of_toModule, fun i items hreads hrepeat => ?_⟩
  refine hreads.comes_or_fails.resolve_left fun ⟨m, hm, hitems⟩ => hrepeat ?_
  have hnodup := (binds_of_comes hm).nodup
  rwa [map_fst_importedNames, hitems] at hnodup

theorem module_table_around_import :
    (∃ s m, scan "var a, c;\nimport a, \x7b 'default' as b \x7d from 'm';\nexport const b = 1;".toList = .ok s ∧
      s.toModule = .ok m ∧ m.bindings.find? "a" = some ⟨"a", some ⟨"m", .default⟩⟩ ∧
      m.bindings.find? "b" = some ⟨"b", some ⟨"m", .default⟩⟩) ∧
    ∃ s items st name, scan "import \x7b a \x7d from 'm';\nimport b, \x7b c as a \x7d from 'n';".toList = .ok s ∧
      s.ReadsOn 18 items ∧ RepeatsFirst items st name ∧
      s.toModule = .error ⟨.malformedImport (.importedTwice name), st.span.start⟩ := by
  constructor
  · obtain ⟨s, m, hs, hm, h⟩ := exists_of_acceptsModule
      "var a, c;\nimport a, \x7b 'default' as b \x7d from 'm';\nexport const b = 1;".toList
      (fun _ m => decide (m.items =
        [.imports ⟨⟨10, 48⟩, ⟨"'m'", "m", ⟨44, 47⟩⟩, ⟨some "a", none, [⟨.literal "'default'" "default", "b"⟩]⟩⟩,
          .exports (.variableList ⟨49, 55⟩ [⟨["b"], true, some 65⟩] 68)])) (by decide +kernel)
    have hitem : _ ∈ m.items := of_decide_eq_true h ▸ List.mem_cons_self
    have htable := (module_table s).1 m hm
    have ha := htable.imported _ "a" .default hitem (.default rfl)
    have hb := htable.imported _ _ .default hitem (.namedDefault List.mem_cons_self rfl)
    exact ⟨s, m, hs, hm, ha, hb⟩
  · obtain ⟨s, hs, h⟩ := exists_ok_of_test
      (x := scan "import \x7b a \x7d from 'm';\nimport b, \x7b c as a \x7d from 'n';".toList)
      (fun s => s.tokens[0]?.any (fun t => s.isStatementKeyword 0 t && t.kind = .keyword .«import») &&
        s.tokens[7]?.any (fun t => s.isStatementKeyword 7 t && t.kind = .keyword .«import») &&
        (s.importStatement 0).toOption.any fun p => (s.importStatement 7).toOption.any fun q =>
          p.2 = 7 && q.2 = 18 && !decide (introducedNames [.imports p.1, .imports q.1]).Nodup) (by decide +kernel)
    simp only [Bool.and_eq_true] at h
    obtain ⟨⟨hfirst, hsecond⟩, h⟩ := h
    obtain ⟨t, ht, hfirst⟩ := (Option.any_eq_true _ _).1 hfirst
    obtain ⟨t', ht', hsecond⟩ := (Option.any_eq_true _ _).1 hsecond
    obtain ⟨⟨st, j⟩, hst, h⟩ := exists_ok_of_test _ h
    obtain ⟨⟨st', k⟩, hst', h⟩ := exists_ok_of_test _ h
    simp only [Bool.and_eq_true, decide_eq_true_eq, Bool.not_eq_true', decide_eq_false_iff_not] at hfirst hsecond h
    obtain ⟨⟨rfl, rfl⟩, hrepeat⟩ := h
    have hreads := (ReadsOn.start.imports ht hfirst.1 hfirst.2 hst).imports ht' hsecond.1 hsecond.2 hst'
    obtain ⟨st, name, hrepeats, herror⟩ := (module_table s).2 _ _ hreads hrepeat
    exact ⟨s, _, st, name, hs, hreads, hrepeats, herror⟩

end Stream

end ModuleLowering
