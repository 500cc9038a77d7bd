import ModuleLowering.Proofs.SourceModule.Walk

namespace ModuleLowering

def ImportStatement.origins (st : ImportStatement) : List (String × Origin) :=
  st.clause.bound.map fun bound => (bound.1, ⟨st.specifier.value, bound.2⟩)

def importedNames (items : List ModuleItem) : List (String × Origin) :=
  items.flatMap fun
    | .imports st => st.origins
    | .exports _ => []

namespace Bindings

theorem find?_insert_of_ne (b : Bindings) (new : Binding) {name : String} (h : name ≠ new.name) :
    (b.insert new).find? name = b.find? name := by
  unfold insert
  split
  · unfold find?
    dsimp only
    induction b.entries with
    | nil => rfl
    | cons e es ih =>
      rw [List.map_cons, List.find?_cons, List.find?_cons]
      by_cases he : e.name = new.name
      · rw [if_pos he, ih]
        simp [h.symm, he]
      · rw [if_neg he, ih]
  · unfold find?
    rw [List.find?_append, List.find?_singleton]
    simp [h.symm]

theorem origin?_declare {b : Bindings} {name : String} {o : Origin} (h : b.origin? name = some o)
    (declared : String) : (b.declare declared).origin? name = some o := by
  obtain ⟨x, hx, ho⟩ := Option.bind_eq_some_iff.1 h
  unfold declare
  split
  · exact h
  · unfold origin? find?
    dsimp only
    rw [List.find?_append, show b.entries.find? _ = some x from hx]
    exact ho

theorem mem_insert {b : Bindings} {new e : Binding} (h : e ∈ (b.insert new).entries) :
    e ∈ b.entries ∨ e = new := by
  unfold insert at h
  split at h
  · obtain ⟨old, hold, rfl⟩ := List.mem_map.1 h
    split
    · exact .inr rfl
    · exact .inl hold
  · simpa using h

theorem mem_declare {b : Bindings} {name : String} {e : Binding} (h : e ∈ (b.declare name).entries) :
    e ∈ b.entries ∨ e = ⟨name, none⟩ := by
  unfold declare at h
  split at h
  · exact .inl h
  · simpa using h

end Bindings

structure Binds (imported : List (String × Origin)) (b : Bindings) : Prop where
  nodup : (imported.map Prod.fst).Nodup
  origin : ∀ p ∈ imported, b.origin? p.1 = some p.2
  entries : ∀ e ∈ b.entries, ∀ o, e.origin = some o → (e.name, o) ∈ imported

theorem binds_empty : Binds [] .empty where
  nodup := List.nodup_nil
  origin := by simp
  entries := by simp [Bindings.empty]

namespace Binds

variable {imported : List (String × Origin)} {b b' : Bindings}

theorem mem_of_origin? (h : Binds imported b) {name : String} {o : Origin} (ho : b.origin? name = some o) :
    (name, o) ∈ imported := by
  obtain ⟨e, he, ho⟩ := Option.bind_eq_some_iff.1 ho
  have hmem := h.entries e (List.mem_of_find?_eq_some he) o ho
  rwa [Bindings.name_of_find? he] at hmem

theorem declare (h : Binds imported b) (name : String) : Binds imported (b.declare name) where
  nodup := h.nodup
  origin := fun p hp => Bindings.origin?_declare (h.origin p hp) name
  entries := by
    intro e he o ho
    rcases Bindings.mem_declare he with he | rfl
    · exact h.entries e he o ho
    · cases ho

theorem declareAll (h : Binds imported b) (names : List String) : Binds imported (b.declareAll names) := by
  unfold Bindings.declareAll
  induction names generalizing b with
  | nil => exact h
  | cons name names ih => exact ih (h.declare name)

theorem bindImport (h : Binds imported b) {specifier : String} {offset : Nat} {bound : String × Imported}
    (hb : Bindings.bindImport specifier offset b bound = .ok b') :
    Binds (imported ++ [(bound.1, ⟨specifier, bound.2⟩)]) b' := by
  unfold Bindings.bindImport at hb
  split at hb
  · cases hb
  · rename_i hfree
    cases hb
    have hnew (p : String × Origin) (hp : p ∈ imported) : p.1 ≠ bound.1 := fun heq =>
      hfree (by rw [← heq, h.origin p hp]; rfl)
    refine ⟨?_, fun p hp => ?_, fun e he o ho => ?_⟩
    · rw [List.map_append, List.nodup_append]
      refine ⟨h.nodup, by simp, ?_⟩
      intro name hname other hother
      obtain ⟨p, hp, rfl⟩ := List.mem_map.1 hname
      rw [List.map_singleton, List.mem_singleton] at hother
      rw [hother]
      exact hnew p hp
    · rcases List.mem_append.1 hp with hp | hp
      · rw [Bindings.origin?, Bindings.find?_insert_of_ne _ _ (hnew p hp)]
        exact h.origin p hp
      · rw [List.mem_singleton.1 hp]
        have hself := Bindings.find?_insert_self b ⟨bound.1, some ⟨specifier, bound.2⟩⟩
        dsimp only at hself
        rw [Bindings.origin?, hself]
        rfl
    · rcases Bindings.mem_insert he with he | rfl
      · exact List.mem_append_left _ (h.entries e he o ho)
      · cases ho
        simp

theorem bindImports (h : Binds imported b) {st : ImportStatement} (hb : b.bindImports st = .ok b') :
    Binds (imported ++ st.origins) b' := by
  unfold Bindings.bindImports at hb
  unfold ImportStatement.origins
  generalize st.clause.bound = bounds at hb
  induction bounds generalizing imported b with
  | nil =>
    cases hb
    simpa using h
  | cons bound bounds ih =>
    rw [List.foldlM_cons] at hb
    obtain ⟨next, hnext, hb⟩ := bind_eq_ok_iff.1 hb
    have hrest := ih (h.bindImport hnext) hb
    rwa [List.append_assoc] at hrest

end Binds

namespace Stream

theorem VisitForm.binds {s : Stream} {i j : Nat} {t : Token} {m n : SourceModule}
    (hv : s.VisitForm i t m n j) (h : Binds (importedNames m.items) m.bindings) :
    Binds (importedNames n.items) n.bindings := by
  cases hv with
  | inner => exact h
  | imports _ _ _ _ hn =>
    obtain ⟨bindings, hb, rfl⟩ := map_eq_ok_iff.1 hn
    simpa [importedNames] using h.bindImports hb
  | exports =>
    have hdeclared := h.declareAll
    simpa [importedNames, SourceModule.addExport] using hdeclared _
  | declares => exact h.declareAll _

theorem binds_of_comes {s : Stream} {i : Nat} {m : SourceModule} (h : s.Comes i m) :
    Binds (importedNames m.items) m.bindings := by
  unfold Comes at h
  generalize hp : (i, m) = p at h
  induction h generalizing i m with
  | refl =>
    cases hp
    exact binds_empty
  | tail _ hstep ih =>
    obtain ⟨t, _, hv⟩ := hstep
    cases hp
    exact (visitForm_of_visit hv).binds (ih rfl)

theorem binds_of_toModule {s : Stream} {m : SourceModule} (h : s.toModule = .ok m) :
    Binds (importedNames m.items) m.bindings := by
  obtain ⟨_, hcomes, _⟩ := comes_of_toModule h
  exact binds_of_comes hcomes

theorem exists_identifier_of_importGroup {s : Stream} {i j : Nat} {name : String} {named : List NamedImport}
    (h : s.importGroup i = .ok ((some name, named), j)) : ∃ k, s.identifier? k = some name := by
  unfold importGroup at h
  split at h
  · split at h
    · split at h <;> cases h
      rename_i hname
      exact ⟨_, hname⟩
    · cases h
  · split at h
    · obtain ⟨_, _, he⟩ := map_eq_ok_iff.1 h
      cases he
    · cases h

theorem exists_identifier_of_importStatement {s : Stream} {i j : Nat} {st : ImportStatement} {name : String}
    (h : s.importStatement i = .ok (st, j)) (hname : st.clause.namespaceName = some name) :
    ∃ k, s.identifier? k = some name := by
  unfold importStatement at h
  split at h
  · cases h
  · rename_i clause _ hc
    split at h <;> cases h
    dsimp only at hname
    unfold importClause at hc
    split at hc
    · cases hc
      cases hname
    · split at hc
      · cases hc
      · rename_i hb
        split at hc <;> cases hc
        unfold importBindings at hb
        split at hb
        · obtain ⟨⟨⟨star, named⟩, _⟩, hg, he⟩ := map_eq_ok_iff.1 hb
          cases he
          cases hname
          exact exists_identifier_of_importGroup hg
        · split at hb
          · obtain ⟨⟨⟨star, named⟩, _⟩, hg, he⟩ := map_eq_ok_iff.1 hb
            cases he
            cases hname
            exact exists_identifier_of_importGroup hg
          · cases hb
            cases hname

end Stream

end ModuleLowering
