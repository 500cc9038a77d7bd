import ModuleLowering.Proofs.Lowering.Holders

namespace ModuleLowering

open Text

namespace Requirement

theorem Gathers.isSideEffectOnly_iff {r : Requirement} {items : List ModuleItem} (h : r.Gathers items) :
    r.isSideEffectOnly ↔ ∀ item ∈ items, item.usesNames = false := by
  simp only [isSideEffectOnly, Bool.and_eq_true, Bool.not_eq_true', List.isEmpty_iff, ModuleItem.usesNames,
    Bool.or_eq_false_iff, Bool.not_eq_false', Option.isSome_eq_false_iff, Option.isNone_iff_eq_none]
  constructor
  · rintro ⟨⟨hdefault, hspaces⟩, hnamed⟩ item hitem
    rw [h.needsDefault, List.any_eq_false] at hdefault
    rw [h.namespaces, List.filterMap_eq_nil_iff] at hspaces
    have hitemDefault := hdefault item hitem
    simp only [ModuleItem.usesDefault, Bool.or_eq_true, not_or, Bool.not_eq_true] at hitemDefault
    refine ⟨⟨hitemDefault.1, hspaces item hitem⟩, List.eq_nil_iff_forall_not_mem.2 ?_⟩
    intro n hn
    have hplain := List.any_eq_false.1 hitemDefault.2 n hn
    rw [Bool.not_eq_true] at hplain
    have hmem := (h.named n).2 ⟨hplain, item, hitem, hn⟩
    rw [hnamed] at hmem
    cases hmem
  · intro hall
    refine ⟨⟨?_, ?_⟩, List.eq_nil_iff_forall_not_mem.2 fun n hn => ?_⟩
    · rw [h.needsDefault, List.any_eq_false]
      intro item hitem
      simp [ModuleItem.usesDefault, (hall item hitem).1.1, (hall item hitem).2]
    · rw [h.namespaces, List.filterMap_eq_nil_iff]
      exact fun item hitem => (hall item hitem).1.2
    · obtain ⟨_, item, hitem, hmem⟩ := (h.named n).1 hn
      rw [(hall item hitem).2] at hmem
      cases hmem

end Requirement

namespace Requirements

open NameRegistry

namespace Named

variable {items : List ModuleItem} {names : NameRegistry} {rs : Requirements} {r : Requirement}

theorem require_mem_iff (h : Named items names rs) (hr : r ∈ rs.records) :
    .require r.literal ∈ rs.linesOf r ↔ ∀ item ∈ itemsFor r.specifier items, item.usesNames = false := by
  rw [← (h.gathers r hr).isSideEffectOnly_iff]
  have hholder := (h.wellNamed r hr).holder
  cases hside : r.isSideEffectOnly with
  | true =>
    rw [hside, Bool.not_true, Option.isSome_eq_false_iff, Option.isNone_iff_eq_none] at hholder
    simp [linesOf, hholder]
  | false =>
    rw [hside, Bool.not_false, Option.isSome_iff_exists] at hholder
    obtain ⟨holder, hholder⟩ := hholder
    refine iff_of_false (fun hmem => ?_) Bool.false_ne_true
    cases hhelpers : rs.helpers <;> simp [linesOf, hholder, hhelpers] at hmem

theorem linesAt_eq (h : Named items names rs) (hr : r ∈ rs.records) (offset : Nat) :
    (rs.linesAt r.specifier offset).getD [] = if r.first = offset then rs.linesOf r else [] := by
  rw [linesAt, h.find?_eq hr, Option.bind_some]
  split <;> rfl

theorem exists_reexportAccess (h : Named items names rs) (hr : r ∈ rs.records) {item : ModuleItem}
    (hitem : item ∈ itemsFor r.specifier items) {n : ModuleName} (hn : n ∈ item.names) :
    ∃ a, rs.reexportAccess r.specifier n = some a := by
  obtain ⟨a, ha, _⟩ := h.provides hr hitem (uses_of_mem_names hn "") (by split <;> exact nofun)
  refine ⟨a, ?_⟩
  rw [← ha, reexportAccess, access]
  split <;> rfl

end Named

end Requirements

namespace Context

def Writes (x : Context) (lines : List Line) : ModuleItem → Prop
  | .imports st => x.itemChanges (.imports st) = .ok [.replace x.source st.span lines]
  | .exports st => ∃ span getters, st.consumedSpan = some span ∧
      x.itemChanges (.exports st) = .ok [.replace x.source span (lines ++ getters)] ∧
      ∀ line ∈ getters, ∃ name access, line = .getter name access

end Context

namespace Context

variable {items : List ModuleItem} {names : NameRegistry} {x : Context} {r : Requirement}

theorem writes_of_itemsFor (h : Requirements.Named items names x.requirements)
    (hr : r ∈ x.requirements.records) {item : ModuleItem} (hitem : item ∈ itemsFor r.specifier items) :
    x.Writes (if r.first = item.start then x.requirements.linesOf r else []) item := by
  rw [← h.linesAt_eq hr]
  obtain ⟨hmem, hfor⟩ := List.mem_filter.1 hitem
  cases item with
  | imports st =>
    have hvalue : st.specifier.value = r.specifier := by
      simpa [ModuleItem.isFor, ModuleItem.specifier?] using hfor
    simp only [Writes, itemChanges, importChange, hvalue, ModuleItem.start]
  | exports st =>
    cases st with
    | namesFrom span specifiers specifier =>
      have hvalue : specifier.value = r.specifier := by
        simpa [ModuleItem.isFor, ModuleItem.specifier?] using hfor
      have hgetter (e : ExportSpecifier) (he : e ∈ specifiers) :
          ∃ line, x.getterLine specifier.value span.start e = .ok line ∧
            ∃ name access, line = .getter name access := by
        obtain ⟨a, ha⟩ := h.exists_reexportAccess hr hitem (List.mem_map_of_mem he)
        exact ⟨.getter e.exported a, by rw [getterLine, hvalue, ha], e.exported, a, rfl⟩
      obtain ⟨getters, hgetters, hall⟩ := exists_mapM_eq_ok hgetter
      refine ⟨span, getters, rfl, ?_, hall⟩
      rw [itemChanges, exportChanges, hgetters, hvalue]
      rfl
    | _ => cases hfor

/-- A module is required by the first of the statements that name it, and by none of the later ones. -/
structure RequiredOnce (x : Context) (r : Requirement) (first : ModuleItem) (later : List ModuleItem) :
    Prop where
  literal : first.specifier?.map (·.raw) = some r.literal
  required : (x.requirements.linesOf r).filterMap Line.required? = [r.literal]
  bare : .require r.literal ∈ x.requirements.linesOf r ↔ ∀ item ∈ first :: later, item.usesNames = false
  written : x.Writes (x.requirements.linesOf r) first
  unwritten : ∀ item ∈ later, x.Writes [] item
  lineBreaks : ∀ st, .imports st ∈ later →
    (x.itemChanges (.imports st)).map (·.map (·.edit)) = .ok [⟨st.span, lineFeeds (st.span.text x.source)⟩]

theorem requiredOnce_of_named (h : Requirements.Named items names x.requirements)
    (hordered : (items.map ModuleItem.start).Pairwise (· < ·)) (hr : r ∈ x.requirements.records) :
    ∃ first later, itemsFor r.specifier items = first :: later ∧ x.RequiredOnce r first later := by
  obtain ⟨first, hhead, hstart, hliteral⟩ := h.first r hr
  obtain ⟨later, hitems⟩ := List.head?_eq_some_iff.1 hhead
  have hwrites (item : ModuleItem) (hitem : item ∈ first :: later) :=
    x.writes_of_itemsFor h hr (hitems ▸ hitem)
  have hlater (item : ModuleItem) (hitem : item ∈ later) : x.Writes [] item := by
    have hsublist := (List.filter_sublist (p := (·.isFor r.specifier)) (l := items)).map ModuleItem.start
    have hpairwise := hordered.sublist hsublist
    rw [show items.filter (·.isFor r.specifier) = first :: later from hitems, List.map_cons] at hpairwise
    have hlt := (List.pairwise_cons.1 hpairwise).1 item.start (List.mem_map_of_mem hitem)
    have hthis := hwrites item (List.mem_cons_of_mem first hitem)
    rwa [if_neg (by omega)] at hthis
  refine ⟨first, later, hitems, hliteral, x.requirements.required_linesOf r, ?_, ?_, hlater, fun st hst => ?_⟩
  · rw [h.require_mem_iff hr, hitems]
  · have hthis := hwrites first List.mem_cons_self
    rwa [if_pos hstart] at hthis
  · rw [show x.itemChanges (.imports st) = _ from hlater _ hst]
    simp [Except.map, Change.edit, Change.replace, renderLines]

end Context

end ModuleLowering
