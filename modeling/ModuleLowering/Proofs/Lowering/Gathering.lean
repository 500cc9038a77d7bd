import ModuleLowering.Proofs.Lowering.FreshNames
import ModuleLowering.Proofs.SourceModule.Walk

namespace ModuleLowering

namespace ModuleItem

def specifier? : ModuleItem → Option Specifier
  | imports st => some st.specifier
  | exports (.namesFrom _ _ specifier) => some specifier
  | exports _ => none

def namespaceName? : ModuleItem → Option String
  | imports st => st.clause.namespaceName
  | exports _ => none

def hasDefaultName : ModuleItem → Bool
  | imports st => st.clause.defaultName.isSome
  | exports _ => false

def names : ModuleItem → List ModuleName
  | imports st => st.clause.named.map (·.imported)
  | exports (.namesFrom _ specifiers _) => specifiers.map (·.source)
  | exports _ => []

def usesDefault (item : ModuleItem) : Bool := item.hasDefaultName || item.names.any (·.isDefault)

def usesNames (item : ModuleItem) : Bool :=
  item.hasDefaultName || item.namespaceName?.isSome || !item.names.isEmpty

def isFor (item : ModuleItem) (specifier : String) : Bool := item.specifier?.any (·.value = specifier)

end ModuleItem

def itemsFor (specifier : String) (items : List ModuleItem) : List ModuleItem :=
  items.filter (·.isFor specifier)

def specifierValues (items : List ModuleItem) : List String :=
  items.filterMap fun item => item.specifier?.map (·.value)

theorem itemsFor_append (specifier : String) (xs ys : List ModuleItem) :
    itemsFor specifier (xs ++ ys) = itemsFor specifier xs ++ itemsFor specifier ys := List.filter_append ..

theorem mem_specifierValues {items : List ModuleItem} {specifier : String} :
    specifier ∈ specifierValues items ↔ itemsFor specifier items ≠ [] := by
  simp [specifierValues, itemsFor, ModuleItem.isFor, Option.any_eq_true]

namespace Requirement

def take (r : Requirement) (item : ModuleItem) : Requirement :=
  item.names.foldl addName
    { r with
      needsDefault := r.needsDefault || item.hasDefaultName
      namespaces := r.namespaces ++ item.namespaceName?.toList }

theorem addName_eq (r : Requirement) (name : ModuleName) :
    ∃ named, r.addName name = { r with needsDefault := r.needsDefault || name.isDefault, named } ∧
      ∀ n, n ∈ named ↔ n ∈ r.named ∨ n.isDefault = false ∧ n = name := by
  unfold addName
  split
  · rename_i hdefault
    refine ⟨r.named, by simp [hdefault], fun n => ⟨.inl, fun hmem => hmem.elim id ?_⟩⟩
    rintro ⟨hn, heq⟩
    rw [heq, hdefault] at hn
    cases hn
  · rename_i hdefault
    rw [Bool.not_eq_true] at hdefault
    split
    · rename_i hnamed
      refine ⟨r.named, by simp [hdefault], fun n => ⟨.inl, fun hmem => hmem.elim id fun hn => ?_⟩⟩
      rw [hn.2]
      exact hnamed
    · refine ⟨r.named ++ [name], by simp [hdefault], ?_⟩
      intro n
      rw [List.mem_append, List.mem_singleton]
      exact or_congr_right ⟨fun hn => ⟨hn ▸ hdefault, hn⟩, fun hn => hn.2⟩

theorem foldl_addName (names : List ModuleName) (r : Requirement) :
    ∃ named, names.foldl addName r =
        { r with needsDefault := r.needsDefault || names.any (·.isDefault), named } ∧
      ∀ n, n ∈ named ↔ n ∈ r.named ∨ n.isDefault = false ∧ n ∈ names := by
  induction names generalizing r with
  | nil => exact ⟨r.named, by simp, by simp⟩
  | cons name names ih =>
    obtain ⟨first, hfirst, hmemFirst⟩ := r.addName_eq name
    obtain ⟨named, heq, hmem⟩ := ih (r.addName name)
    refine ⟨named, ?_, fun n => ?_⟩
    · rw [List.foldl_cons, heq, hfirst, List.any_cons, Bool.or_assoc]
    · rw [hmem n, hfirst, hmemFirst n, List.mem_cons, or_assoc, ← and_or_left]

theorem take_eq (r : Requirement) (item : ModuleItem) :
    ∃ named, r.take item =
        { r with
          needsDefault := r.needsDefault || item.usesDefault
          namespaces := r.namespaces ++ item.namespaceName?.toList
          named } ∧
      ∀ n, n ∈ named ↔ n ∈ r.named ∨ n.isDefault = false ∧ n ∈ item.names := by
  obtain ⟨named, heq, hmem⟩ := foldl_addName item.names
    { r with
      needsDefault := r.needsDefault || item.hasDefaultName
      namespaces := r.namespaces ++ item.namespaceName?.toList }
  exact ⟨named, by rw [take, heq, ModuleItem.usesDefault, Bool.or_assoc], hmem⟩

theorem specifier_take (r : Requirement) (item : ModuleItem) : (r.take item).specifier = r.specifier := by
  obtain ⟨_, heq, _⟩ := r.take_eq item
  rw [heq]

structure Gathers (r : Requirement) (items : List ModuleItem) : Prop where
  namespaces : r.namespaces = items.filterMap (·.namespaceName?)
  needsDefault : r.needsDefault = items.any (·.usesDefault)
  named : ∀ n, n ∈ r.named ↔ n.isDefault = false ∧ ∃ item ∈ items, n ∈ item.names

theorem gathers_new (specifier : Specifier) (first : Nat) : (new specifier first).Gathers [] where
  namespaces := rfl
  needsDefault := rfl
  named := by simp [new]

theorem Gathers.take {r : Requirement} {items : List ModuleItem} (h : r.Gathers items) (item : ModuleItem) :
    (r.take item).Gathers (items ++ [item]) := by
  obtain ⟨named, heq, hmem⟩ := r.take_eq item
  rw [heq]
  constructor
  · rw [List.filterMap_append, ← h.namespaces]
    cases hn : item.namespaceName? <;> simp [hn]
  · rw [List.any_append, ← h.needsDefault]
    simp
  · intro n
    rw [hmem n, h.named n]
    simp only [List.mem_append, List.mem_singleton, or_and_right, exists_or, exists_eq_left, and_or_left]

structure For (r : Requirement) (items : List ModuleItem) : Prop where
  unnamed : r.unnamed = r
  gathers : r.Gathers (itemsFor r.specifier items)
  first : ∃ item, (itemsFor r.specifier items).head? = some item ∧ r.first = item.start ∧
    item.specifier?.map (·.raw) = some r.literal

namespace For

variable {r : Requirement} {items : List ModuleItem} {item : ModuleItem}

theorem skip (h : r.For items) (hitem : item.isFor r.specifier = false) : r.For (items ++ [item]) := by
  have hsame : itemsFor r.specifier (items ++ [item]) = itemsFor r.specifier items := by
    rw [itemsFor_append]
    simp [itemsFor, hitem]
  exact ⟨h.unnamed, hsame ▸ h.gathers, hsame ▸ h.first⟩

theorem take (h : r.For items) (hitem : item.isFor r.specifier) : (r.take item).For (items ++ [item]) := by
  have hmore : itemsFor r.specifier (items ++ [item]) = itemsFor r.specifier items ++ [item] := by
    rw [itemsFor_append]
    simp [itemsFor, hitem]
  obtain ⟨named, heq, _⟩ := r.take_eq item
  constructor
  · rw [heq, ← h.unnamed]
    rfl
  · rw [specifier_take, hmore]
    exact h.gathers.take item
  · obtain ⟨first, hhead, hfirst⟩ := h.first
    rw [specifier_take, hmore]
    refine ⟨first, ?_, ?_⟩
    · rw [List.head?_append, hhead]
      rfl
    · rw [heq]
      exact hfirst

theorem new {specifier : Specifier} (hitem : item.specifier? = some specifier)
    (hnone : itemsFor specifier.value items = []) :
    ((Requirement.new specifier item.start).take item).For (items ++ [item]) := by
  have hfor : itemsFor specifier.value (items ++ [item]) = [item] := by
    rw [itemsFor_append, hnone]
    simp [itemsFor, ModuleItem.isFor, hitem]
  obtain ⟨named, heq, _⟩ := (Requirement.new specifier item.start).take_eq item
  have hspecifier : ((Requirement.new specifier item.start).take item).specifier = specifier.value :=
    specifier_take _ item
  constructor
  · rw [heq]
    rfl
  · rw [hspecifier, hfor]
    exact (gathers_new specifier item.start).take item
  · rw [hspecifier, hfor]
    refine ⟨item, rfl, ?_, ?_⟩
    · rw [heq]
      rfl
    · rw [heq, hitem]
      rfl

end For

end Requirement

namespace Requirements

theorem addItem_eq (rs : Requirements) (item : ModuleItem) :
    rs.addItem item = match item.specifier? with
      | none => rs
      | some specifier => rs.update specifier item.start (·.take item) := by
  cases item with
  | imports st => rfl
  | exports st =>
    cases st with
    | namesFrom span specifiers specifier =>
      unfold addItem ModuleItem.specifier?
      dsimp only
      refine congrArg (rs.update specifier span.start) (funext fun r => ?_)
      simp [Requirement.take, ModuleItem.names, ModuleItem.hasDefaultName, ModuleItem.namespaceName?]
    | _ => rfl

structure Gathered (items : List ModuleItem) (rs : Requirements) : Prop where
  helpers : rs.helpers = none
  specifiers : rs.records.map (·.specifier) = (specifierValues items).eraseDups
  records : ∀ r ∈ rs.records, r.For items

theorem gathered_nil : Gathered [] empty where
  helpers := rfl
  specifiers := rfl
  records := by simp [empty]

theorem find?_isSome {rs : Requirements} {specifier : String} :
    (rs.find? specifier).isSome = true ↔ specifier ∈ rs.records.map (·.specifier) := by
  simp [Requirements.find?]

namespace Gathered

variable {items : List ModuleItem} {rs : Requirements} {item : ModuleItem} {specifier : Specifier}

theorem skip (h : Gathered items rs) (hitem : item.specifier? = none) : Gathered (items ++ [item]) rs where
  helpers := h.helpers
  specifiers := by simpa [specifierValues, hitem] using h.specifiers
  records := fun r hr => (h.records r hr).skip (by simp [ModuleItem.isFor, hitem])

theorem specifiers_snoc (h : Gathered items rs) (hitem : item.specifier? = some specifier) :
    (specifierValues (items ++ [item])).eraseDups =
      rs.records.map (·.specifier) ++
        if specifier.value ∈ rs.records.map (·.specifier) then [] else [specifier.value] := by
  have hvalues : specifierValues (items ++ [item]) = specifierValues items ++ [specifier.value] := by
    simp [specifierValues, hitem]
  rw [hvalues, List.eraseDups_append, h.specifiers]
  by_cases hmem : specifier.value ∈ specifierValues items <;>
    simp [List.removeAll, hmem, List.eraseDups_cons]

theorem update_known (h : Gathered items rs) (hitem : item.specifier? = some specifier)
    (hknown : (rs.find? specifier.value).isSome) :
    Gathered (items ++ [item]) (rs.update specifier item.start (·.take item)) := by
  unfold update
  rw [if_pos hknown]
  refine ⟨h.helpers, ?_, fun r' hr' => ?_⟩
  · rw [h.specifiers_snoc hitem, if_pos (find?_isSome.1 hknown), List.append_nil, List.map_map]
    apply List.map_congr_left
    intro r _
    rw [Function.comp_apply]
    split
    · exact r.specifier_take item
    · rfl
  · obtain ⟨r, hr, rfl⟩ := List.mem_map.1 hr'
    split
    · rename_i hsame
      exact (h.records r hr).take (by simp [ModuleItem.isFor, hitem, hsame])
    · rename_i hother
      exact (h.records r hr).skip (by simp [ModuleItem.isFor, hitem, Ne.symm hother])

theorem update_new (h : Gathered items rs) (hitem : item.specifier? = some specifier)
    (hnew : ¬ (rs.find? specifier.value).isSome) :
    Gathered (items ++ [item]) (rs.update specifier item.start (·.take item)) := by
  unfold update
  rw [if_neg hnew]
  have hmem : specifier.value ∉ rs.records.map (·.specifier) := mt find?_isSome.2 hnew
  have hnone : itemsFor specifier.value items = [] := by
    rw [h.specifiers, List.mem_eraseDups, mem_specifierValues] at hmem
    simpa using hmem
  refine ⟨h.helpers, ?_, fun r hr => ?_⟩
  · rw [h.specifiers_snoc hitem, if_neg hmem, List.map_append, List.map_singleton, Requirement.specifier_take]
    rfl
  · rcases List.mem_append.1 hr with hr | hr
    · apply (h.records r hr).skip
      have hother : specifier.value ≠ r.specifier := fun heq => hmem (heq ▸ List.mem_map_of_mem hr)
      simp [ModuleItem.isFor, hitem, hother]
    · rw [List.mem_singleton.1 hr]
      exact .new hitem hnone

theorem add (h : Gathered items rs) (item : ModuleItem) : Gathered (items ++ [item]) (rs.addItem item) := by
  rw [addItem_eq]
  cases hitem : item.specifier? with
  | none => exact h.skip hitem
  | some specifier =>
    by_cases hknown : (rs.find? specifier.value).isSome
    · exact h.update_known hitem hknown
    · exact h.update_new hitem hknown

end Gathered

theorem gathered_ofItems (items : List ModuleItem) : Gathered items (ofItems items) := by
  have hfold (done rest : List ModuleItem) (rs : Requirements) (h : Gathered done rs) :
      Gathered (done ++ rest) (rest.foldl addItem rs) := by
    induction rest generalizing done rs with
    | nil => simpa using h
    | cons item rest ih =>
      have hrest := ih (done ++ [item]) (rs.addItem item) (h.add item)
      rwa [List.append_assoc] at hrest
  exact hfold [] items empty gathered_nil

end Requirements

end ModuleLowering
