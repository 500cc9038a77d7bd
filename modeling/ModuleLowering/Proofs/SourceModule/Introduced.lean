import ModuleLowering.Proofs.SourceModule.Imported

namespace ModuleLowering

def ImportClause.names (c : ImportClause) : List String :=
  c.defaultName.toList ++ c.namespaceName.toList ++ c.named.map (·.binding)

def introducedNames (items : List ModuleItem) : List String :=
  items.flatMap fun
    | .imports st => st.clause.names
    | .exports _ => []

inductive ImportStatement.Introduces (st : ImportStatement) : String → Imported → Prop
  | default {name : String} (h : st.clause.defaultName = some name) : Introduces st name .default
  | everything {name : String} (h : st.clause.namespaceName = some name) : Introduces st name .everything
  | named {n : NamedImport} (h : n ∈ st.clause.named) (hname : n.imported.value ≠ "default") :
      Introduces st n.binding (.named n.imported)
  | namedDefault {n : NamedImport} (h : n ∈ st.clause.named) (hname : n.imported.value = "default") :
      Introduces st n.binding .default

theorem ImportClause.map_fst_bound (c : ImportClause) : c.bound.map Prod.fst = c.names := by
  obtain ⟨defaultName, namespaceName, named⟩ := c
  cases defaultName <;> cases namespaceName <;> simp [bound, names, Function.comp_def]

@[simp] theorem introducedNames_append (items more : List ModuleItem) :
    introducedNames (items ++ more) = introducedNames items ++ introducedNames more := List.flatMap_append

@[simp] theorem introducedNames_imports (st : ImportStatement) : introducedNames [.imports st] = st.clause.names :=
  List.flatMap_singleton ..

theorem map_fst_importedNames (items : List ModuleItem) :
    (importedNames items).map Prod.fst = introducedNames items := by
  induction items with
  | nil => rfl
  | cons item items ih =>
    rw [importedNames, List.flatMap_cons, List.map_append, introducedNames, List.flatMap_cons]
    congr 1
    cases item with
    | imports st => exact List.map_map.trans st.clause.map_fst_bound
    | exports => rfl

theorem ImportStatement.Introduces.mem_origins {st : ImportStatement} {name : String} {what : Imported}
    (h : st.Introduces name what) : (name, ⟨st.specifier.value, what⟩) ∈ st.origins := by
  have hnamed {n : NamedImport} (hn : n ∈ st.clause.named) : (n.binding, n.what) ∈ st.clause.bound :=
    List.mem_append_right _ (List.mem_map.2 ⟨n, hn, rfl⟩)
  refine List.mem_map.2 ⟨(name, what), ?_, rfl⟩
  cases h with
  | default h | everything h => simp [ImportClause.bound, h]
  | @named n h hname =>
    have hwhat : n.what = .named n.imported := if_neg (by simpa [ModuleName.isDefault] using hname)
    exact hwhat ▸ hnamed h
  | @namedDefault n h hname =>
    have hwhat : n.what = .default := if_pos (by simpa [ModuleName.isDefault] using hname)
    exact hwhat ▸ hnamed h

theorem ImportStatement.mem_names_iff {st : ImportStatement} {name : String} :
    name ∈ st.clause.names ↔ ∃ what, st.Introduces name what := by
  simp only [ImportClause.names, List.mem_append, Option.mem_toList, List.mem_map]
  constructor
  · rintro ((h | h) | ⟨n, hn, rfl⟩)
    · exact ⟨_, .default h⟩
    · exact ⟨_, .everything h⟩
    · by_cases hdefault : n.imported.value = "default"
      · exact ⟨_, .namedDefault hn hdefault⟩
      · exact ⟨_, .named hn hdefault⟩
  · rintro ⟨what, h⟩
    cases h with
    | default h => exact .inl (.inl h)
    | everything h => exact .inl (.inr h)
    | named hn | namedDefault hn => exact .inr ⟨_, hn, rfl⟩

theorem mem_introducedNames_iff {items : List ModuleItem} {name : String} :
    name ∈ introducedNames items ↔ ∃ st what, .imports st ∈ items ∧ st.Introduces name what := by
  simp only [introducedNames, List.mem_flatMap]
  constructor
  · rintro ⟨item, hitem, hname⟩
    cases item with
    | imports st =>
      obtain ⟨what, h⟩ := ImportStatement.mem_names_iff.1 hname
      exact ⟨st, what, hitem, h⟩
    | exports => cases hname
  · rintro ⟨st, what, hst, h⟩
    exact ⟨.imports st, hst, ImportStatement.mem_names_iff.2 ⟨what, h⟩⟩

namespace Bindings

def names (b : Bindings) : List String := b.entries.map (·.name)

variable {b : Bindings} {name : String}

theorem isSome_find?_iff : (b.find? name).isSome ↔ name ∈ b.names := by
  simp [find?, names]

theorem find?_eq_none_iff : b.find? name = none ↔ name ∉ b.names := by
  rw [← isSome_find?_iff, Bool.not_eq_true, Option.isSome_eq_false_iff, Option.isNone_iff_eq_none]

theorem find?_of_origin? {o : Origin} (h : b.origin? name = some o) : b.find? name = some ⟨name, some o⟩ := by
  obtain ⟨found, hfound, ho⟩ := Option.bind_eq_some_iff.1 h
  rw [hfound, ← ho, ← name_of_find? hfound]

theorem origin?_of_find? {o : Origin} (h : b.find? name = some ⟨name, some o⟩) : b.origin? name = some o := by
  rw [origin?, h]
  rfl

theorem names_declare (declared : String) :
    (b.declare declared).names = if declared ∈ b.names then b.names else b.names ++ [declared] := by
  unfold declare
  by_cases h : declared ∈ b.names
  · rw [if_pos (isSome_find?_iff.2 h), if_pos h]
  · rw [if_neg (by rwa [isSome_find?_iff]), if_neg h, names, List.map_append, List.map_singleton]
    rfl

theorem names_insert (new : Binding) : (b.insert new).names = (b.declare new.name).names := by
  rw [names_declare]
  unfold insert
  by_cases h : new.name ∈ b.names
  · rw [if_pos (isSome_find?_iff.2 h), if_pos h, names, List.map_map]
    refine List.map_congr_left fun old _ => ?_
    rw [Function.comp_apply]
    split
    · exact (‹old.name = new.name›).symm
    · rfl
  · rw [if_neg (by rwa [isSome_find?_iff]), if_neg h, names, List.map_append, List.map_singleton]
    rfl

theorem mem_names_declare {declared : String} :
    name ∈ (b.declare declared).names ↔ name ∈ b.names ∨ name = declared := by
  rw [names_declare]
  split
  · exact ⟨.inl, fun h => h.elim id fun heq => heq ▸ ‹declared ∈ b.names›⟩
  · rw [List.mem_append, List.mem_singleton]

theorem nodup_names_declare (h : b.names.Nodup) (declared : String) : (b.declare declared).names.Nodup := by
  rw [names_declare]
  split
  · exact h
  · rename_i hnew
    refine List.nodup_append.2 ⟨h, by simp, fun x hx y hy heq => hnew ?_⟩
    rwa [← List.mem_singleton.1 hy, ← heq]

theorem mem_names_declareAll {declared : List String} :
    name ∈ (b.declareAll declared).names ↔ name ∈ b.names ∨ name ∈ declared := by
  unfold declareAll
  induction declared generalizing b with
  | nil => simp
  | cons d declared ih => rw [List.foldl_cons, ih, mem_names_declare, List.mem_cons, or_assoc]

theorem nodup_names_declareAll (h : b.names.Nodup) (declared : List String) : (b.declareAll declared).names.Nodup := by
  unfold declareAll
  induction declared generalizing b with
  | nil => exact h
  | cons d declared ih => exact ih (nodup_names_declare h d)

variable {b' : Bindings}

theorem names_declareAll_congr (h : b.names = b'.names) (declared : List String) :
    (b.declareAll declared).names = (b'.declareAll declared).names := by
  unfold declareAll
  induction declared generalizing b b' with
  | nil => exact h
  | cons d declared ih => exact ih (by rw [names_declare, names_declare, h])

theorem names_bindImport {specifier : String} {offset : Nat} {bound : String × Imported}
    (h : bindImport specifier offset b bound = .ok b') : b'.names = (b.declare bound.1).names := by
  unfold bindImport at h
  split at h <;> cases h
  exact names_insert _

theorem names_foldlM {specifier : String} {offset : Nat} {bounds : List (String × Imported)}
    (h : bounds.foldlM (bindImport specifier offset) b = .ok b') :
    b'.names = (b.declareAll (bounds.map Prod.fst)).names := by
  induction bounds generalizing b with
  | nil =>
    cases h
    rfl
  | cons bound bounds ih =>
    rw [List.foldlM_cons] at h
    obtain ⟨next, hnext, h⟩ := bind_eq_ok_iff.1 h
    rw [ih h]
    exact names_declareAll_congr (names_bindImport hnext) _

theorem names_bindImports {st : ImportStatement} (h : b.bindImports st = .ok b') :
    b'.names = (b.declareAll st.clause.names).names := by
  rw [names_foldlM h, st.clause.map_fst_bound]

end Bindings

namespace Binds

variable {imported : List (String × Origin)} {b : Bindings}

theorem foldlM_cases (h : Binds imported b) (specifier : String) (offset : Nat) (bounds : List (String × Imported)) :
    (∃ b', bounds.foldlM (Bindings.bindImport specifier offset) b = .ok b') ∨
      ∃ name ∈ bounds.map Prod.fst, 1 < (imported.map Prod.fst ++ bounds.map Prod.fst).count name ∧
        bounds.foldlM (Bindings.bindImport specifier offset) b = refuseImport (.importedTwice name) offset := by
  induction bounds generalizing imported b with
  | nil => exact .inl ⟨b, rfl⟩
  | cons bound bounds ih =>
    rw [List.foldlM_cons]
    cases hnext : Bindings.bindImport specifier offset b bound with
    | ok next =>
      have hbound := h.bindImport hnext
      have hrest := ih hbound
      rw [List.map_append, List.map_singleton, List.append_assoc] at hrest
      exact hrest.imp id fun ⟨name, hname, hcount, herror⟩ =>
        ⟨name, List.mem_cons_of_mem _ hname, hcount, herror⟩
    | error e =>
      unfold Bindings.bindImport at hnext
      split at hnext
      · rename_i hknown
        cases hnext
        obtain ⟨o, ho⟩ := Option.isSome_iff_exists.1 hknown
        have hmem : bound.1 ∈ imported.map Prod.fst := List.mem_map.2 ⟨_, h.mem_of_origin? ho, rfl⟩
        have hcount := List.count_pos_iff.2 hmem
        refine .inr ⟨bound.1, List.mem_cons_self, ?_, rfl⟩
        rw [List.count_append, List.map_cons, List.count_cons_self]
        omega
      · cases hnext

theorem addImport_cases {m : SourceModule} (h : Binds (importedNames m.items) m.bindings) (st : ImportStatement) :
    (∃ n, m.addImport st = .ok n ∧ n.items = m.items ++ [.imports st]) ∨
      ∃ name ∈ st.clause.names, 1 < (introducedNames (m.items ++ [.imports st])).count name ∧
        m.addImport st = refuseImport (.importedTwice name) st.span.start := by
  have hcases := h.foldlM_cases st.specifier.value st.span.start st.clause.bound
  rw [map_fst_importedNames, st.clause.map_fst_bound] at hcases
  unfold SourceModule.addImport Bindings.bindImports
  rcases hcases with ⟨b', hb⟩ | ⟨name, hname, hcount, herror⟩
  · exact .inl ⟨_, by rw [hb]; rfl, rfl⟩
  · refine .inr ⟨name, hname, ?_, by rw [herror]; rfl⟩
    rwa [introducedNames_append, introducedNames_imports]

end Binds

/-- A statement introduces a name that has been introduced before it or twice in it, and it is the first to do so. -/
structure RepeatsFirst (items : List ModuleItem) (st : ImportStatement) (name : String) : Prop where
  exists_split : ∃ before after, items = before ++ .imports st :: after ∧ (introducedNames before).Nodup ∧
    1 < (introducedNames (before ++ [.imports st])).count name
  mem : name ∈ st.clause.names

theorem RepeatsFirst.append {items : List ModuleItem} {st : ImportStatement} {name : String}
    (h : RepeatsFirst items st name) (item : ModuleItem) : RepeatsFirst (items ++ [item]) st name := by
  obtain ⟨⟨before, after, rfl, hbefore, hcount⟩, hmem⟩ := h
  exact ⟨⟨before, after ++ [item], by simp, hbefore, hcount⟩, hmem⟩

end ModuleLowering
