import Mathlib.Data.List.Nodup
import Mathlib.Data.List.Perm.Basic
import ModuleLowering.Lowering.Basic
import ModuleLowering.Proofs.Lowering.Naming
import ModuleLowering.Proofs.SourceModule.Imported

namespace ModuleLowering

def ModuleItem.Uses (item : ModuleItem) (name : String) : Imported → Prop
  | .default => item.usesDefault
  | .named n => n.isDefault = false ∧ n ∈ item.names
  | .everything => item.namespaceName? = some name

theorem uses_of_mem_names {item : ModuleItem} {n : ModuleName} (h : n ∈ item.names) (name : String) :
    item.Uses name (if n.isDefault then .default else .named n) := by
  split
  · rename_i hdefault
    exact Bool.or_eq_true_iff.2 (.inr (List.any_eq_true.2 ⟨n, h, hdefault⟩))
  · rename_i hdefault
    exact ⟨by simpa using hdefault, h⟩

theorem uses_of_bound {st : ImportStatement} {name : String} {what : Imported}
    (h : (name, what) ∈ st.clause.bound) : (ModuleItem.imports st).Uses name what := by
  simp only [ImportClause.bound, List.mem_append, Option.mem_toList, Option.map_eq_some_iff, List.mem_map] at h
  rcases h with (⟨_, hdefault, he⟩ | ⟨_, hspace, he⟩) | ⟨n, hn, he⟩
  · cases he
    simp [ModuleItem.Uses, ModuleItem.usesDefault, ModuleItem.hasDefaultName, hdefault]
  · cases he
    exact hspace
  · cases he
    exact uses_of_mem_names (List.mem_map_of_mem hn) n.binding

theorem exists_uses_of_mem_importedNames {items : List ModuleItem} {name : String} {o : Origin}
    (h : (name, o) ∈ importedNames items) : ∃ item ∈ itemsFor o.specifier items, item.Uses name o.imported := by
  obtain ⟨item, hitem, hname⟩ := List.mem_flatMap.1 h
  cases item with
  | exports => cases hname
  | imports st =>
    obtain ⟨bound, hbound, he⟩ := List.mem_map.1 hname
    cases he
    refine ⟨.imports st, List.mem_filter.2 ⟨hitem, ?_⟩, uses_of_bound hbound⟩
    simp [ModuleItem.isFor, ModuleItem.specifier?]

theorem namespaceNames_sublist (items : List ModuleItem) :
    (items.filterMap (·.namespaceName?)).Sublist ((importedNames items).map Prod.fst) := by
  induction items with
  | nil => exact .slnil
  | cons item items ih =>
    have hown : item.namespaceName?.toList.Sublist ((importedNames [item]).map Prod.fst) := by
      cases item with
      | exports => exact .slnil
      | imports st =>
        simp only [importedNames, List.flatMap_cons, List.flatMap_nil, List.append_nil, ImportStatement.origins,
          ImportClause.bound, List.map_append, List.map_map]
        refine List.Sublist.trans ?_ (List.sublist_append_left _ _)
        refine List.Sublist.trans ?_ (List.sublist_append_right _ _)
        cases hspace : st.clause.namespaceName <;> simp [ModuleItem.namespaceName?, hspace]
    have hcons : (item :: items).filterMap (·.namespaceName?) =
        item.namespaceName?.toList ++ items.filterMap (·.namespaceName?) := by
      rw [List.filterMap_cons]
      cases item.namespaceName? <;> rfl
    have himported : importedNames (item :: items) = importedNames [item] ++ importedNames items := by
      simp [importedNames]
    rw [hcons, himported, List.map_append]
    exact hown.append ih

namespace Requirement.Gathers

variable {r : Requirement} {items : List ModuleItem}

theorem mem_importedNames (h : r.Gathers (itemsFor r.specifier items)) {name : String}
    (hname : name ∈ r.namespaces) : (name, ⟨r.specifier, .everything⟩) ∈ importedNames items := by
  rw [h.namespaces] at hname
  obtain ⟨item, hitem, hspace⟩ := List.mem_filterMap.1 hname
  obtain ⟨hmem, hfor⟩ := List.mem_filter.1 hitem
  cases item with
  | exports => cases hspace
  | imports st =>
    have hvalue : st.specifier.value = r.specifier := by
      simpa [ModuleItem.isFor, ModuleItem.specifier?] using hfor
    refine List.mem_flatMap.2 ⟨.imports st, hmem, List.mem_map.2 ⟨(name, .everything), ?_, by rw [hvalue]⟩⟩
    simp [ImportClause.bound, show st.clause.namespaceName = some name from hspace]

theorem namespaces_nodup (h : r.Gathers (itemsFor r.specifier items)) {b : Bindings}
    (hb : Binds (importedNames items) b) : r.namespaces.Nodup := by
  rw [h.namespaces]
  exact (hb.nodup.sublist (namespaceNames_sublist items)).sublist (List.filter_sublist.filterMap _)

end Requirement.Gathers

namespace Requirement

theorem namedAccess_eq {r : Requirement} {n : ModuleName} {a : Access} (h : r.namedAccess n = some a) :
    a.property = n ∧ a.holder ∈ r.holders := by
  obtain ⟨holder, hholder, rfl⟩ := Option.map_eq_some_iff.1 h
  exact ⟨rfl, mem_holders_of_holder hholder⟩

theorem defaultAccess_eq {r : Requirement} {a : Access} (h : r.defaultAccess = some a) :
    a.property = .identifier "default" ∧ (a.holder ∈ r.holders ∨ r.namespaces.head? = some a.holder) := by
  obtain ⟨holder, hholder, rfl⟩ := Option.map_eq_some_iff.1 h
  refine ⟨rfl, ?_⟩
  cases hspaces : r.namespaces.head? with
  | none =>
    rw [hspaces] at hholder
    exact .inl (mem_holders_of_defaultHolder hholder)
  | some first =>
    rw [hspaces] at hholder
    exact .inr hholder

end Requirement

namespace Stream

theorem exists_identifier_of_namespace {s : Stream} {m : SourceModule} (hm : s.toModule = .ok m) {item : ModuleItem}
    (hitem : item ∈ m.items) {name : String} (hname : item.namespaceName? = some name) :
    ∃ k, s.identifier? k = some name := by
  obtain ⟨_, rs, hrs⟩ := readings_of_toModule hm
  rw [hrs.items_eq] at hitem
  obtain ⟨r, hr, rfl⟩ := List.mem_map.1 hitem
  cases hrs.reads r hr with
  | imports _ _ _ hi => exact exists_identifier_of_importStatement hi hname
  | exports => cases hname

theorem taken_of_namespace {s : Stream} {m : SourceModule} (hm : s.toModule = .ok m) {item : ModuleItem}
    (hitem : item ∈ m.items) {name : String} (hname : item.namespaceName? = some name) :
    name ∈ (NameRegistry.ofStream s).taken := by
  obtain ⟨k, hk⟩ := exists_identifier_of_namespace hm hitem hname
  exact NameRegistry.mem_ofStream hk

end Stream

namespace Requirements

open NameRegistry

def lines (rs : Requirements) : List Line := rs.records.flatMap rs.linesOf

inductive Provides (rs : Requirements) (items : List ModuleItem) (r : Requirement) : Imported → Access → Prop
  | named {name : ModuleName} {holder : String} (h : .declare holder r.literal ∈ rs.linesOf r) :
      Provides rs items r (.named name) ⟨holder, name⟩
  | fromNamespace {holder source : String} {helpers : HelperNames}
      (hfirst : ((itemsFor r.specifier items).filterMap (·.namespaceName?)).head? = some holder)
      (hhelpers : rs.helpers = some helpers) (hsource : .declare source r.literal ∈ rs.linesOf r)
      (h : .interop holder helpers.wildcard source ∈ rs.linesOf r) :
      Provides rs items r .default ⟨holder, .identifier "default"⟩
  | fromDefault {holder source : String} {helpers : HelperNames}
      (hnone : ∀ item ∈ itemsFor r.specifier items, item.namespaceName? = none)
      (hhelpers : rs.helpers = some helpers) (hsource : .declare source r.literal ∈ rs.linesOf r)
      (h : .interop holder helpers.default source ∈ rs.linesOf r) :
      Provides rs items r .default ⟨holder, .identifier "default"⟩

theorem holder_of_access {rs : Requirements} {o : Origin} {a : Access} (h : rs.access o = some a) :
    ∃ r ∈ rs.records, r.specifier = o.specifier ∧
      (a.holder ∈ r.holders ∨ (o.imported = .default ∧ r.namespaces.head? = some a.holder)) := by
  obtain ⟨r, hr, ha⟩ := Option.bind_eq_some_iff.1 h
  have hspecifier : r.specifier = o.specifier := by simpa using List.find?_some hr
  refine ⟨r, List.mem_of_find?_eq_some hr, hspecifier, ?_⟩
  cases hwhat : o.imported with
  | everything => simp [hwhat] at ha
  | named name =>
    rw [hwhat] at ha
    exact .inl (Requirement.namedAccess_eq ha).2
  | default =>
    rw [hwhat] at ha
    exact (Requirement.defaultAccess_eq ha).2.imp_right fun hfirst => ⟨rfl, hfirst⟩

namespace Named

variable {items : List ModuleItem} {names : NameRegistry} {rs : Requirements} {r : Requirement}

theorem provides_named (h : Named items names rs) (hr : r ∈ rs.records) {item : ModuleItem}
    (hitem : item ∈ itemsFor r.specifier items) {n : ModuleName} (hplain : n.isDefault = false)
    (hn : n ∈ item.names) :
    ∃ a, rs.access ⟨r.specifier, .named n⟩ = some a ∧ Provides rs items r (.named n) a := by
  have hnamed := List.ne_nil_of_mem (((h.gathers r hr).named n).2 ⟨hplain, item, hitem, hn⟩)
  have hholder : r.holder.isSome := by
    rw [(h.wellNamed r hr).holder]
    simp [Requirement.isSideEffectOnly, hnamed]
  obtain ⟨holder, hholder⟩ := Option.isSome_iff_exists.1 hholder
  refine ⟨⟨holder, n⟩, ?_, .named ?_⟩
  · simp [access, h.find?_eq hr, Requirement.namedAccess, hholder]
  · simp [linesOf, hholder]

theorem provides_default (h : Named items names rs) (hr : r ∈ rs.records) (hdefault : r.needsDefault) :
    ∃ a, rs.access ⟨r.specifier, .default⟩ = some a ∧ Provides rs items r .default a := by
  have hgathers := h.gathers r hr
  obtain ⟨helpers, source, hhelpers, _, hlines⟩ :=
    h.linesOf_of_needsInterop hr (Requirement.needsInterop_of_needsDefault hdefault)
  have hdeclare : Line.declare source r.literal ∈ rs.linesOf r := by simp [hlines]
  cases hspaces : r.namespaces with
  | nil =>
    have hvariable : r.defaultHolder.isSome := by
      rw [(h.wellNamed r hr).defaultHolder]
      simp [Requirement.needsDefaultVariable, hdefault, hspaces]
    obtain ⟨holder, hholder⟩ := Option.isSome_iff_exists.1 hvariable
    refine ⟨⟨holder, .identifier "default"⟩, ?_, .fromDefault ?_ hhelpers hdeclare ?_⟩
    · simp [access, h.find?_eq hr, Requirement.defaultAccess, hspaces, hholder]
    · exact List.filterMap_eq_nil_iff.1 (hgathers.namespaces.symm.trans hspaces)
    · simp [hlines, hholder]
  | cons holder rest =>
    refine ⟨⟨holder, .identifier "default"⟩, ?_, .fromNamespace ?_ hhelpers hdeclare ?_⟩
    · simp [access, h.find?_eq hr, Requirement.defaultAccess, hspaces]
    · rw [← hgathers.namespaces, hspaces]
      rfl
    · simp [hlines, hspaces]

theorem provides (h : Named items names rs) (hr : r ∈ rs.records) {item : ModuleItem}
    (hitem : item ∈ itemsFor r.specifier items) {name : String} {what : Imported} (huses : item.Uses name what)
    (hne : what ≠ .everything) : ∃ a, rs.access ⟨r.specifier, what⟩ = some a ∧ Provides rs items r what a := by
  cases what with
  | everything => exact absurd rfl hne
  | named n => exact h.provides_named hr hitem huses.1 huses.2
  | default =>
    apply h.provides_default hr
    rw [(h.gathers r hr).needsDefault]
    exact List.any_eq_true.2 ⟨item, hitem, huses⟩

theorem exists_provides (h : Named items names rs) {name : String} {o : Origin}
    (hname : (name, o) ∈ importedNames items) (hne : o.imported ≠ .everything) :
    ∃ r ∈ rs.records, ∃ a, rs.find? o.specifier = some r ∧ rs.access o = some a ∧
      rs.Provides items r o.imported a := by
  obtain ⟨item, hitem, huses⟩ := exists_uses_of_mem_importedNames hname
  obtain ⟨r, hr, hspecifier⟩ := h.exists_of_itemsFor hitem
  rw [← hspecifier] at hitem
  obtain ⟨a, haccess, hprovides⟩ := h.provides hr hitem huses hne
  rw [hspecifier] at haccess
  exact ⟨r, hr, a, hspecifier ▸ h.find?_eq hr, haccess, hprovides⟩

theorem declared_perm (h : Named items names rs) :
    (rs.records.flatMap Requirement.holders ++ rs.records.flatMap (·.namespaces)).Perm
      (rs.lines.filterMap Line.declared?) := by
  have heq : rs.lines.filterMap Line.declared? = rs.records.flatMap fun r => r.holders ++ r.namespaces := by
    rw [lines, List.filterMap_flatMap]
    exact List.flatMap_congr fun r hr => h.declared_linesOf hr
  rw [heq]
  exact List.flatMap_append_perm _ _ _

theorem namespaces_nodup (h : Named items names rs) {b : Bindings} (hb : Binds (importedNames items) b) :
    (rs.records.flatMap (·.namespaces)).Nodup := by
  refine List.nodup_flatMap.2 ⟨fun r hr => (h.gathers r hr).namespaces_nodup hb, ?_⟩
  refine (List.pairwise_map.1 h.specifiers_nodup).imp_of_mem fun {r r'} hr hr' hne name hname hname' => hne ?_
  have horigin := hb.origin _ ((h.gathers r hr).mem_importedNames hname)
  rw [hb.origin _ ((h.gathers r' hr').mem_importedNames hname')] at horigin
  exact (congrArg Origin.specifier (Option.some.inj horigin)).symm

theorem declared_nodup (h : Named items names rs) {b : Bindings} (hb : Binds (importedNames items) b)
    (htaken : ∀ item ∈ items, ∀ name, item.namespaceName? = some name → name ∈ names.taken) :
    (rs.lines.filterMap Line.declared?).Nodup := by
  obtain ⟨final, htakes⟩ := h.takes
  refine h.declared_perm.nodup_iff.1 (List.nodup_append.2 ⟨?_, h.namespaces_nodup hb, ?_⟩)
  · exact (List.nodup_append.1 htakes.nodup).2.1
  · rintro name hname other hother rfl
    obtain ⟨r, hr, hspace⟩ := List.mem_flatMap.1 hother
    rw [(h.gathers r hr).namespaces] at hspace
    obtain ⟨item, hitem, hspace⟩ := List.mem_filterMap.1 hspace
    exact htakes.not_mem (List.mem_append_right _ hname)
      (htaken item (List.mem_of_mem_filter hitem) name hspace)

theorem helpers_isSome_iff (h : Named items names rs) :
    rs.helpers.isSome ↔ ∃ line ∈ rs.lines, line.called?.isSome := by
  rw [h.helpers, List.any_eq_true]
  constructor
  · rintro ⟨r, hr, hneeds⟩
    obtain ⟨line, hline, hcalled⟩ := (h.exists_called_iff hr).2 hneeds
    exact ⟨line, List.mem_flatMap.2 ⟨r, hr, hline⟩, hcalled⟩
  · rintro ⟨line, hline, hcalled⟩
    obtain ⟨r, hr, hline⟩ := List.mem_flatMap.1 hline
    exact ⟨r, hr, (h.exists_called_iff hr).1 ⟨line, hline, hcalled⟩⟩

end Named

theorem Provides.declares {rs : Requirements} {items : List ModuleItem} {r : Requirement} {what : Imported}
    {a : Access} (h : Provides rs items r what a) : ∃ line ∈ rs.linesOf r, line.declared? = some a.holder := by
  cases h with
  | named h => exact ⟨_, h, rfl⟩
  | fromNamespace _ _ _ h | fromDefault _ _ _ h => exact ⟨_, h, rfl⟩

end Requirements

end ModuleLowering
