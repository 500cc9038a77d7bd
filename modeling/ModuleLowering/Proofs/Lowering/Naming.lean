import Mathlib.Data.List.Nodup
import ModuleLowering.Lowering.Line
import ModuleLowering.Proofs.Lowering.Gathering

namespace ModuleLowering

namespace Line

def required? : Line → Option String
  | require literal | declare _ literal => some literal
  | _ => none

def declared? : Line → Option String
  | declare holder _ | interop holder _ _ => some holder
  | _ => none

def called? : Line → Option String
  | interop _ helper _ => some helper
  | _ => none

end Line

theorem nodup_eraseDups (values : List String) : values.eraseDups.Nodup := by
  generalize hn : values.length = n
  induction n using Nat.strongRecOn generalizing values with
  | ind n ih =>
    cases values with
    | nil => exact List.nodup_nil
    | cons value rest =>
      rw [List.eraseDups_cons]
      refine List.nodup_cons.2 ⟨fun hmem => ?_, ih _ ?_ _ rfl⟩
      · simpa using List.mem_eraseDups.1 hmem
      · rw [← hn]
        exact Nat.lt_succ_of_le (List.length_filter_le _ rest)

namespace Requirements

open NameRegistry

def helperNames (rs : Requirements) : List String :=
  match rs.helpers with
  | none => []
  | some helpers => [helpers.wildcard, helpers.default]

def grants (rs : Requirements) : List Grant :=
  (rs.helpers.map HelperNames.grants).getD [] ++ rs.records.flatMap Requirement.grants

structure Named (items : List ModuleItem) (names : NameRegistry) (rs : Requirements) : Prop where
  specifiers : rs.records.map (·.specifier) = (specifierValues items).eraseDups
  gathers : ∀ r ∈ rs.records, r.Gathers (itemsFor r.specifier items)
  first : ∀ r ∈ rs.records, ∃ item, (itemsFor r.specifier items).head? = some item ∧ r.first = item.start ∧
    item.specifier?.map (·.raw) = some r.literal
  wellNamed : ∀ r ∈ rs.records, r.WellNamed
  helpers : rs.helpers.isSome = rs.records.any (·.needsInterop)
  takes : ∃ final, Takes names (rs.helperNames ++ rs.records.flatMap Requirement.holders) final

theorem needsInterop_of_unnamed {rs rs' : List Requirement}
    (h : rs'.map Requirement.unnamed = rs.map Requirement.unnamed) :
    rs'.any (·.needsInterop) = rs.any (·.needsInterop) := by
  have hany (xs : List Requirement) :
      xs.any (·.needsInterop) = (xs.map Requirement.unnamed).any (·.needsInterop) := by
    rw [List.any_map]
    rfl
  rw [hany, h, ← hany]

theorem map_grants {rs : Requirements} (h : ∀ r ∈ rs.records, r.WellNamed) :
    rs.grants.map (·.name) = rs.helperNames ++ rs.records.flatMap Requirement.holders := by
  have hrecords : (rs.records.flatMap Requirement.grants).map (·.name) =
      rs.records.flatMap Requirement.holders := by
    rw [List.map_flatMap]
    exact List.flatMap_congr fun r hr => (h r hr).map_grants
  rw [grants, List.map_append, hrecords, helperNames]
  cases rs.helpers <;> rfl

theorem allocate_spec {rs : Requirements} (h : ∀ r ∈ rs.records, r.unnamed = r) (hnone : rs.helpers = none)
    (names : NameRegistry) :
    (rs.allocate names).1.records.map Requirement.unnamed = rs.records.map Requirement.unnamed ∧
      (∀ r ∈ (rs.allocate names).1.records, r.WellNamed) ∧
      (rs.allocate names).1.helpers.isSome = rs.needsInterop ∧
      Grants names (rs.allocate names).1.grants (rs.allocate names).2 := by
  unfold allocate
  split
  · rename_i hneeds
    obtain ⟨hnamed, hgrants⟩ := nameRecords_spec h (HelperNames.allocate names).2
    exact ⟨nameRecords_unnamed _ _, hnamed, hneeds.symm, .allocate _ (.allocate _ hgrants)⟩
  · rename_i hneeds
    obtain ⟨hnamed, hgrants⟩ := nameRecords_spec h names
    refine ⟨nameRecords_unnamed _ _, hnamed, ?_, ?_⟩
    · rw [hnone]
      simpa using hneeds
    · rw [grants, hnone]
      exact hgrants

theorem named_allocate (items : List ModuleItem) (names : NameRegistry) :
    Named items names ((ofItems items).allocate names).1 := by
  have h := gathered_ofItems items
  have hnone (r : Requirement) (hr : r ∈ (ofItems items).records) : r.unnamed = r := (h.records r hr).unnamed
  obtain ⟨hunnamed, hnamed, hhelpers, hgrants⟩ := allocate_spec hnone h.helpers names
  generalize ((ofItems items).allocate names).1 = rs at hunnamed hnamed hhelpers hgrants ⊢
  have hrecords : rs.records.map Requirement.unnamed = (ofItems items).records := by
    rw [hunnamed]
    exact (List.map_congr_left hnone).trans (List.map_id _)
  have hfor (r : Requirement) (hr : r ∈ rs.records) : r.unnamed.For items :=
    h.records r.unnamed (hrecords ▸ List.mem_map_of_mem hr)
  refine ⟨?_, fun r hr => ?_, fun r hr => (hfor r hr).first, hnamed, ?_, _, map_grants hnamed ▸ hgrants.takes⟩
  · rw [← h.specifiers, ← hrecords, List.map_map]
    rfl
  · obtain ⟨hnamespaces, hdefault, hnames⟩ := (hfor r hr).gathers
    exact ⟨hnamespaces, hdefault, hnames⟩
  · rw [hhelpers, needsInterop_of_unnamed hunnamed]
    rfl

namespace Named

variable {items : List ModuleItem} {names : NameRegistry} {rs : Requirements} {r : Requirement}

theorem specifiers_nodup (h : Named items names rs) : (rs.records.map (·.specifier)).Nodup := by
  rw [h.specifiers]
  exact nodup_eraseDups _

theorem find?_eq (h : Named items names rs) (hr : r ∈ rs.records) : rs.find? r.specifier = some r := by
  obtain ⟨found, hfound⟩ := Option.isSome_iff_exists.1 (find?_isSome.2 (List.mem_map_of_mem hr))
  have hspecifier : found.specifier = r.specifier := by simpa using List.find?_some hfound
  rw [hfound, List.inj_on_of_nodup_map h.specifiers_nodup (List.mem_of_find?_eq_some hfound) hr hspecifier]

theorem exists_of_itemsFor (h : Named items names rs) {specifier : String} {item : ModuleItem}
    (hitem : item ∈ itemsFor specifier items) : ∃ r ∈ rs.records, r.specifier = specifier := by
  have hmem : specifier ∈ rs.records.map (·.specifier) := by
    rw [h.specifiers, List.mem_eraseDups]
    exact mem_specifierValues.2 (List.ne_nil_of_mem hitem)
  exact List.mem_map.1 hmem

theorem linesOf_of_needsInterop (h : Named items names rs) (hr : r ∈ rs.records) (hneeds : r.needsInterop) :
    ∃ helpers holder, rs.helpers = some helpers ∧ r.holder = some holder ∧
      rs.linesOf r = .declare holder r.literal ::
        ((r.defaultHolder.map (Line.interop · helpers.default holder)).toList ++
          r.namespaces.map (Line.interop · helpers.wildcard holder)) := by
  have hsome : rs.helpers.isSome := by
    rw [h.helpers]
    exact List.any_eq_true.2 ⟨r, hr, hneeds⟩
  have hholder : r.holder.isSome := by
    rw [(h.wellNamed r hr).holder, Requirement.isSideEffectOnly_of_needsInterop hneeds]
    rfl
  obtain ⟨helpers, hhelpers⟩ := Option.isSome_iff_exists.1 hsome
  obtain ⟨holder, hholder⟩ := Option.isSome_iff_exists.1 hholder
  refine ⟨helpers, holder, hhelpers, hholder, ?_⟩
  rw [linesOf, hholder, hhelpers]

theorem linesOf_of_not_needsInterop (h : Named items names rs) (hr : r ∈ rs.records)
    (hneeds : r.needsInterop = false) :
    r.defaultHolder = none ∧ r.namespaces = [] ∧
      rs.linesOf r = [(r.holder.map (Line.declare · r.literal)).getD (.require r.literal)] := by
  simp only [Requirement.needsInterop, Bool.or_eq_false_iff, Bool.not_eq_false'] at hneeds
  have hdefault : r.defaultHolder = none := by
    have hsome := (h.wellNamed r hr).defaultHolder
    rw [hneeds.1] at hsome
    simpa using hsome
  have hnamespaces : r.namespaces = [] := by simpa using hneeds.2
  refine ⟨hdefault, hnamespaces, ?_⟩
  rw [linesOf, hdefault, hnamespaces]
  cases r.holder with
  | none => rfl
  | some holder => cases rs.helpers <;> rfl

theorem declared_linesOf (h : Named items names rs) (hr : r ∈ rs.records) :
    (rs.linesOf r).filterMap Line.declared? = r.holders ++ r.namespaces := by
  cases hneeds : r.needsInterop with
  | true =>
    obtain ⟨helpers, holder, _, hholder, hlines⟩ := h.linesOf_of_needsInterop hr hneeds
    rw [hlines, Requirement.holders, hholder]
    cases r.defaultHolder <;> simp [Line.declared?, Function.comp_def]
  | false =>
    obtain ⟨hdefault, hnamespaces, hlines⟩ := h.linesOf_of_not_needsInterop hr hneeds
    rw [hlines, Requirement.holders, hdefault, hnamespaces]
    cases r.holder <;> rfl

theorem exists_called_iff (h : Named items names rs) (hr : r ∈ rs.records) :
    (∃ line ∈ rs.linesOf r, line.called?.isSome) ↔ r.needsInterop := by
  cases hneeds : r.needsInterop with
  | true =>
    obtain ⟨helpers, holder, _, hholder, hlines⟩ := h.linesOf_of_needsInterop hr hneeds
    refine ⟨fun _ => rfl, ?_⟩
    intro _
    rw [hlines]
    cases hdefault : r.defaultHolder with
    | some default => exact ⟨.interop default helpers.default holder, by simp, rfl⟩
    | none =>
      have hnamed := (h.wellNamed r hr).defaultHolder
      rw [hdefault] at hnamed
      rw [Requirement.needsInterop, ← hnamed] at hneeds
      obtain ⟨first, rest, hnamespaces⟩ :=
        List.exists_cons_of_ne_nil (l := r.namespaces) (by simpa using hneeds)
      exact ⟨.interop first helpers.wildcard holder, by simp [hnamespaces], rfl⟩
  | false =>
    obtain ⟨hdefault, hnamespaces, hlines⟩ := h.linesOf_of_not_needsInterop hr hneeds
    rw [hlines]
    cases r.holder <;> simp [Line.called?]

end Named

/-- What a line for the module of a requirement is, and what stands for the variable and the helper in it. -/
inductive WritesFor (rs : Requirements) (r : Requirement) : Line → Prop
  | require (hnone : r.holder = none) : WritesFor rs r (.require r.literal)
  | declare {holder : String} (hholder : r.holder = some holder) : WritesFor rs r (.declare holder r.literal)
  | ofDefault {holder default : String} {helpers : HelperNames} (hholder : r.holder = some holder)
      (hhelpers : rs.helpers = some helpers) (hdefault : r.defaultHolder = some default) :
      WritesFor rs r (.interop default helpers.default holder)
  | ofNamespace {holder name : String} {helpers : HelperNames} (hholder : r.holder = some holder)
      (hhelpers : rs.helpers = some helpers) (hname : name ∈ r.namespaces) :
      WritesFor rs r (.interop name helpers.wildcard holder)

theorem writesFor_of_mem {rs : Requirements} {r : Requirement} {line : Line} (h : line ∈ rs.linesOf r) :
    rs.WritesFor r line := by
  unfold linesOf at h
  split at h
  · rename_i hnone
    rw [List.mem_singleton.1 h]
    exact .require hnone
  · rename_i holder hholder
    rcases List.mem_cons.1 h with rfl | h
    · exact .declare hholder
    · split at h
      · cases h
      · rename_i helpers hhelpers
        rcases List.mem_append.1 h with h | h
        · obtain ⟨default, hdefault, rfl⟩ := Option.map_eq_some_iff.1 (Option.mem_toList.1 h)
          exact .ofDefault hholder hhelpers hdefault
        · obtain ⟨name, hname, rfl⟩ := List.mem_map.1 h
          exact .ofNamespace hholder hhelpers hname

theorem exists_of_linesAt {rs : Requirements} {specifier : String} {offset : Nat} {line : Line}
    (h : line ∈ (rs.linesAt specifier offset).getD []) : ∃ r ∈ rs.records, line ∈ rs.linesOf r := by
  unfold linesAt at h
  cases hfind : rs.find? specifier with
  | none => simp [hfind] at h
  | some r =>
    rw [hfind, Option.bind_some] at h
    split at h
    · exact ⟨r, List.mem_of_find?_eq_some hfind, h⟩
    · cases h

theorem helper_of_called {rs : Requirements} {r : Requirement} {line : Line} (hline : line ∈ rs.linesOf r)
    {helper : String} (hcalled : line.called? = some helper) :
    ∃ helpers, rs.helpers = some helpers ∧ (helper = helpers.wildcard ∨ helper = helpers.default) := by
  cases writesFor_of_mem hline with
  | require | declare => cases hcalled
  | ofDefault _ hhelpers =>
    cases hcalled
    exact ⟨_, hhelpers, .inr rfl⟩
  | ofNamespace _ hhelpers =>
    cases hcalled
    exact ⟨_, hhelpers, .inl rfl⟩

theorem required_linesOf (rs : Requirements) (r : Requirement) :
    (rs.linesOf r).filterMap Line.required? = [r.literal] := by
  unfold linesOf
  split
  · rfl
  · cases rs.helpers with
    | none => rfl
    | some helpers => cases r.defaultHolder <;> simp [Line.required?]

end Requirements

end ModuleLowering
