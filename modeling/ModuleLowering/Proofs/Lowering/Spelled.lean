import ModuleLowering.Proofs.Lowering.Allocation
import ModuleLowering.Proofs.Role.Literals

namespace ModuleLowering

open Text Lexeme

/-- A name without escapes that begins with the character which all names of lowering begin with. -/
def IsSynthetic (name : String) : Prop := name.toList.head? = some '_' ∧ IsName name.toList

instance (name : String) : Decidable (IsSynthetic name) := inferInstanceAs (Decidable (_ ∧ _))

namespace IsSynthetic

variable {name : String}

theorem ne (h : IsSynthetic name) {word : String} (hword : word.toList.head? ≠ some '_') : name ≠ word := by
  rintro rfl
  exact hword h.1

theorem append (h : IsSynthetic name) {rest : String} (hrest : IsName rest.toList) : IsSynthetic (name ++ rest) := by
  obtain ⟨tail, htail⟩ := List.head?_eq_some_iff.1 h.1
  rw [IsSynthetic, String.toList_append]
  exact ⟨by rw [htail]; rfl, List.forall_mem_append.2 ⟨h.2, hrest⟩⟩

theorem variableBase (specifier : String) : IsSynthetic (variableBase specifier) := by
  refine append (by decide) fun c hc => ?_
  rw [String.toList_ofList] at hc
  simp [isJsxNamePart, (List.mem_filter.1 hc).2]

end IsSynthetic

theorem isName_toString (n : Nat) : IsName (toString n).toList := by
  intro c hc
  change c ∈ n.repr.toList at hc
  rw [Nat.toList_repr] at hc
  have hdigit : c.isDigit := Nat.isDigit_of_mem_toDigits (by decide) (by decide) hc
  simp [isJsxNamePart, isIdentifierPart, hdigit]

namespace NameRegistry

theorem FirstFree.isSynthetic {r : NameRegistry} {base name : String} (h : r.FirstFree base name)
    (hbase : IsSynthetic base) : IsSynthetic name := by
  cases h with
  | plain => exact hbase
  | numbered => exact hbase.append (isName_toString _)

theorem Grants.isSynthetic {r r' : NameRegistry} {grants : List Grant} (h : Grants r grants r') {g : Grant}
    (hg : g ∈ grants) (hbase : IsSynthetic g.base) : IsSynthetic g.name := by
  induction h with
  | nil => cases hg
  | @allocate r _ _ base _ ih =>
    rcases List.mem_cons.1 hg with rfl | hg
    · exact (r.firstFree_fresh base).isSynthetic hbase
    · exact ih hg

end NameRegistry

namespace Requirements

theorem isSynthetic_base_of_grants {rs : Requirements} {r r' : NameRegistry} (h : NameRegistry.Grants r rs.grants r')
    {g : NameRegistry.Grant} (hg : g ∈ rs.grants) : IsSynthetic g.base := by
  rcases List.mem_append.1 hg with hg' | hg'
  · cases hhelpers : rs.helpers with
    | none => simp [hhelpers] at hg'
    | some helpers =>
      rw [hhelpers] at hg'
      rcases List.mem_cons.1 hg' with rfl | hg'
      · exact (by decide : IsSynthetic "_interopRequireWildcard")
      · rw [List.mem_singleton.1 hg']
        exact (by decide : IsSynthetic "_interopRequireDefault")
  · obtain ⟨q, hq, hg'⟩ := List.mem_flatMap.1 hg'
    have hmem : ∀ f ∈ q.grants, f ∈ rs.grants := fun f hf =>
      List.mem_append_right _ (List.mem_flatMap.2 ⟨q, hq, hf⟩)
    unfold Requirement.grants at hg' hmem
    split at hg'
    · cases hg'
    · rename_i holder hholder
      rw [hholder] at hmem
      rcases List.mem_cons.1 hg' with rfl | hg'
      · exact .variableBase q.specifier
      · -- The variable for a default export is named after that for its module.
        obtain ⟨default, _, rfl⟩ := Option.map_eq_some_iff.1 (Option.mem_toList.1 hg')
        exact h.isSynthetic (hmem _ List.mem_cons_self) (.variableBase q.specifier)

theorem isSynthetic_of_mem_names (items : List ModuleItem) (names : NameRegistry) :
    ∀ name ∈ ((ofItems items).allocate names).1.names, IsSynthetic name := by
  have hnamed := named_allocate items names
  have hgrants := names.grants_serve (.requirements items)
  change NameRegistry.Grants names ((ofItems items).allocate names).1.grants _ at hgrants
  intro name hname
  rw [Requirements.names, ← map_grants hnamed.wellNamed] at hname
  obtain ⟨g, hg, rfl⟩ := List.mem_map.1 hname
  exact hgrants.isSynthetic hg (isSynthetic_base_of_grants hgrants hg)

end Requirements

end ModuleLowering
