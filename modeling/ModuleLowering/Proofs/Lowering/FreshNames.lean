import ModuleLowering.Lowering.Requirement

namespace ModuleLowering

namespace NameRegistry

theorem contains_iff {r : NameRegistry} {name : String} : r.contains name = true ↔ name ∈ r.taken := by
  simp [contains]

theorem repr_injective {m n : Nat} (h : Nat.repr m = Nat.repr n) : m = n := by
  have hdigits := congrArg (fun w : String => Nat.ofDigitChars 10 w.toList 0) h
  simpa using hdigits

theorem candidates_nodup (base : String) (n : Nat) :
    ((List.range n).map fun k => base ++ toString (k + 2)).Nodup := by
  refine List.pairwise_map.2 (List.nodup_range.imp fun {k l} hne heq => hne ?_)
  have hlists := congrArg String.toList heq
  rw [String.toList_append, String.toList_append] at hlists
  have hnumbers := repr_injective (String.toList_inj.1 (List.append_cancel_left hlists))
  omega

/-- The name is the base itself if that is free, and else the base with the least number from two on that
makes it free. That number is no more than one above the number of names taken. -/
inductive FirstFree (r : NameRegistry) (base : String) : String → Prop
  | plain (h : r.contains base = false) : FirstFree r base base
  | numbered {n : Nat} (htaken : r.contains base) (hn : 2 ≤ n) (hle : n ≤ r.size + 1)
      (hfree : r.contains (base ++ toString n) = false)
      (hleast : ∀ k, 2 ≤ k → k < n → r.contains (base ++ toString k)) :
      FirstFree r base (base ++ toString n)

theorem ne_append_number (base : String) (n : Nat) : base ≠ base ++ toString n := by
  intro heq
  have hlists := congrArg String.toList heq
  rw [String.toList_append, List.self_eq_append_right] at hlists
  have := congrArg List.length hlists
  have := Nat.length_repr_pos (n := n)
  simp_all

theorem lt_size_of_taken {r : NameRegistry} {base : String} {n : Nat} (hbase : r.contains base)
    (h : ∀ k < n, r.contains (base ++ toString (k + 2))) : n < r.size := by
  have hnodup : (base :: (List.range n).map fun k => base ++ toString (k + 2)).Nodup := by
    refine List.nodup_cons.2 ⟨fun hmem => ?_, candidates_nodup base n⟩
    obtain ⟨k, _, hk⟩ := List.mem_map.1 hmem
    exact ne_append_number base (k + 2) hk.symm
  have htaken : (base :: (List.range n).map fun k => base ++ toString (k + 2)) ⊆ r.taken := by
    intro name hname
    rcases List.mem_cons.1 hname with rfl | hname
    · exact contains_iff.1 hbase
    · obtain ⟨k, hk, rfl⟩ := List.mem_map.1 hname
      exact contains_iff.1 (h k (List.mem_range.1 hk))
  have hle := hnodup.length_le_of_subset htaken
  rw [List.length_cons, List.length_map, List.length_range] at hle
  exact hle

theorem firstFree_fresh (r : NameRegistry) (base : String) : r.FirstFree base (r.fresh base) := by
  unfold fresh
  split
  · rename_i htaken
    rw [List.find?_map]
    cases hfind : (List.range (r.size + 1)).find?
        ((!r.contains ·) ∘ fun n => base ++ toString (n + 2)) with
    | some k =>
      obtain ⟨hfree, _, hbelow⟩ := List.find?_range_eq_some.1 hfind
      have hbelow (j : Nat) (hj : j < k) : r.contains (base ++ toString (j + 2)) := by
        simpa using hbelow j hj
      have hlt := lt_size_of_taken htaken hbelow
      refine .numbered htaken (Nat.le_add_left 2 k) (by omega) (by simpa using hfree) fun j hj hjk => ?_
      obtain ⟨i, rfl⟩ := Nat.exists_eq_add_of_le' hj
      exact hbelow i (by omega)
    | none =>
      have hall := List.find?_eq_none.1 hfind
      have hlt := lt_size_of_taken htaken (n := r.size + 1) fun k hk => by
        simpa using hall k (List.mem_range.2 hk)
      omega
  · rename_i hfree
    exact .plain (by simpa using hfree)

theorem FirstFree.not_contains {r : NameRegistry} {base name : String} (h : r.FirstFree base name) :
    r.contains name = false := by
  cases h with
  | plain hfree => exact hfree
  | numbered _ _ _ hfree => exact hfree

theorem fresh_not_mem (r : NameRegistry) (base : String) : r.fresh base ∉ r.taken := by
  rw [← contains_iff, (r.firstFree_fresh base).not_contains]
  exact Bool.false_ne_true

inductive Takes : NameRegistry → List String → NameRegistry → Prop
  | nil {r : NameRegistry} : Takes r [] r
  | allocate {r r' : NameRegistry} {names : List String} (base : String)
      (h : Takes (r.allocate base).2 names r') : Takes r ((r.allocate base).1 :: names) r'

namespace Takes

variable {r r' : NameRegistry} {names : List String}

theorem mem_allocate {name base : String} : name ∈ (r.allocate base).2.taken ↔
    name = (r.allocate base).1 ∨ name ∈ r.taken := by
  simp [NameRegistry.allocate]

theorem not_mem (h : Takes r names r') {name : String} (hname : name ∈ names) : name ∉ r.taken := by
  induction h with
  | nil => cases hname
  | @allocate r r' names base _ ih =>
    rcases List.mem_cons.1 hname with rfl | hname
    · exact r.fresh_not_mem base
    · exact fun hmem => ih hname (mem_allocate.2 (.inr hmem))

theorem nodup (h : Takes r names r') : names.Nodup := by
  induction h with
  | nil => exact List.nodup_nil
  | allocate base h ih =>
    exact List.nodup_cons.2 ⟨fun hmem => h.not_mem hmem (mem_allocate.2 (.inl rfl)), ih⟩

end Takes

structure Grant where
  base : String
  name : String

inductive Grants : NameRegistry → List Grant → NameRegistry → Prop
  | nil {r : NameRegistry} : Grants r [] r
  | allocate {r r' : NameRegistry} {grants : List Grant} (base : String)
      (h : Grants (r.allocate base).2 grants r') : Grants r (⟨base, (r.allocate base).1⟩ :: grants) r'

namespace Grants

variable {r r' r'' : NameRegistry} {grants more : List Grant}

theorem append (h : Grants r grants r') (h' : Grants r' more r'') : Grants r (grants ++ more) r'' := by
  induction h with
  | nil => exact h'
  | allocate base _ ih => exact .allocate base (ih h')

theorem takes (h : Grants r grants r') : Takes r (grants.map (·.name)) r' := by
  induction h with
  | nil => exact .nil
  | allocate base _ ih => exact .allocate base ih

end Grants

theorem mem_foldl_insert {names taken : List String} {name : String} :
    name ∈ names.foldl (fun taken name => taken.insert name) taken ↔ name ∈ taken ∨ name ∈ names := by
  induction names generalizing taken with
  | nil => simp
  | cons n ns ih =>
    rw [List.foldl_cons, ih, List.mem_insert_iff, List.mem_cons, or_assoc, or_left_comm]

theorem mem_ofStream {s : Stream} {i : Nat} {name : String} (h : s.identifier? i = some name) :
    name ∈ (ofStream s).taken := by
  obtain ⟨t, ht, hname⟩ := Option.bind_eq_some_iff.1 h
  refine mem_foldl_insert.2 (.inr ?_)
  split at hname
  · rename_i hk
    cases hname
    refine List.mem_map_of_mem (List.mem_filter.2 ⟨?_, by simp [hk]⟩)
    exact Array.mem_toList_iff.2 (Array.mem_of_getElem? ht)
  · cases hname

end NameRegistry

def HelperNames.grants (helpers : HelperNames) : List NameRegistry.Grant :=
  [⟨"_interopRequireWildcard", helpers.wildcard⟩, ⟨"_interopRequireDefault", helpers.default⟩]

namespace Requirement

def holders (r : Requirement) : List String := r.holder.toList ++ r.defaultHolder.toList

theorem mem_holders_of_holder {r : Requirement} {name : String} (h : r.holder = some name) : name ∈ r.holders :=
  List.mem_append_left _ (Option.mem_toList.2 h)

theorem mem_holders_of_defaultHolder {r : Requirement} {name : String} (h : r.defaultHolder = some name) :
    name ∈ r.holders :=
  List.mem_append_right _ (Option.mem_toList.2 h)

def unnamed (r : Requirement) : Requirement := { r with holder := none, defaultHolder := none }

theorem isSideEffectOnly_of_needsInterop {r : Requirement} (h : r.needsInterop) :
    r.isSideEffectOnly = false := by
  simp only [needsInterop, needsDefaultVariable, Bool.or_eq_true, Bool.and_eq_true, Bool.not_eq_true'] at h
  rcases h with ⟨hdefault, _⟩ | hnamespaces
  · simp [isSideEffectOnly, hdefault]
  · simp [isSideEffectOnly, hnamespaces]

theorem needsInterop_of_needsDefault {r : Requirement} (h : r.needsDefault) : r.needsInterop := by
  cases hspaces : r.namespaces.isEmpty <;> simp [needsInterop, needsDefaultVariable, h, hspaces]

structure WellNamed (r : Requirement) : Prop where
  holder : r.holder.isSome = !r.isSideEffectOnly
  defaultHolder : r.defaultHolder.isSome = r.needsDefaultVariable

theorem needsDefaultVariable_of_isSideEffectOnly {r : Requirement} (h : r.isSideEffectOnly) :
    r.needsDefaultVariable = false := by
  simp only [isSideEffectOnly, Bool.and_eq_true, Bool.not_eq_true'] at h
  simp [needsDefaultVariable, h.1.1]

def grants (r : Requirement) : List NameRegistry.Grant :=
  match r.holder with
  | none => []
  | some holder => ⟨variableBase r.specifier, holder⟩ :: (r.defaultHolder.map (⟨holder, ·⟩)).toList

theorem WellNamed.map_grants {r : Requirement} (h : r.WellNamed) : r.grants.map (·.name) = r.holders := by
  unfold grants holders
  cases hholder : r.holder with
  | none =>
    have hside := h.holder
    rw [hholder, Option.isSome_none, eq_comm, Bool.not_eq_false'] at hside
    have hdefault := h.defaultHolder
    rw [needsDefaultVariable_of_isSideEffectOnly hside] at hdefault
    simpa using hdefault
  | some holder => cases r.defaultHolder <;> rfl

end Requirement

namespace Requirements

open NameRegistry

theorem nameRecord_unnamed (r : Requirement) (names : NameRegistry) :
    (nameRecord r names).1.unnamed = r.unnamed := by
  unfold nameRecord
  split
  · rfl
  · dsimp only
    split <;> rfl

theorem nameRecord_spec {r : Requirement} (hr : r.unnamed = r) (names : NameRegistry) :
    (nameRecord r names).1.WellNamed ∧
      Grants names (nameRecord r names).1.grants (nameRecord r names).2 := by
  have hholder : r.holder = none := congrArg Requirement.holder hr.symm
  have hdefault : r.defaultHolder = none := congrArg Requirement.defaultHolder hr.symm
  unfold nameRecord
  split
  · rename_i hside
    have hneeds := Requirement.needsDefaultVariable_of_isSideEffectOnly hside
    refine ⟨⟨by simp [hholder, hside], by simp [hdefault, hneeds]⟩, ?_⟩
    rw [Requirement.grants, hholder]
    exact .nil
  · rename_i hside
    have hside : true = !r.isSideEffectOnly := by simpa using hside
    dsimp only
    split
    · rename_i hneeds
      exact ⟨⟨hside, hneeds.symm⟩, .allocate _ (.allocate _ .nil)⟩
    · rename_i hneeds
      refine ⟨⟨hside, ?_⟩, ?_⟩
      · rw [Bool.not_eq_true] at hneeds
        exact (congrArg Option.isSome hdefault).trans hneeds.symm
      · rw [Requirement.grants]
        dsimp only
        rw [hdefault]
        exact .allocate _ .nil

theorem nameRecords_unnamed (records : List Requirement) (names : NameRegistry) :
    (nameRecords records names).1.map Requirement.unnamed = records.map Requirement.unnamed := by
  induction records generalizing names with
  | nil => rfl
  | cons r rs ih =>
    unfold nameRecords
    rw [List.map_cons, List.map_cons, nameRecord_unnamed, ih]

theorem nameRecords_spec {records : List Requirement} (h : ∀ r ∈ records, r.unnamed = r)
    (names : NameRegistry) :
    (∀ r ∈ (nameRecords records names).1, r.WellNamed) ∧
      Grants names ((nameRecords records names).1.flatMap Requirement.grants)
        (nameRecords records names).2 := by
  induction records generalizing names with
  | nil => exact ⟨by simp [nameRecords], .nil⟩
  | cons r rs ih =>
    obtain ⟨hnamed, hgrants⟩ := nameRecord_spec (h r List.mem_cons_self) names
    obtain ⟨hrest, hgrantsRest⟩ := ih (fun r' hr' => h r' (List.mem_cons_of_mem r hr')) (nameRecord r names).2
    unfold nameRecords
    refine ⟨fun r' hr' => ?_, hgrants.append hgrantsRest⟩
    rcases List.mem_cons.1 hr' with rfl | hr'
    · exact hnamed
    · exact hrest r' hr'

end Requirements

end ModuleLowering
