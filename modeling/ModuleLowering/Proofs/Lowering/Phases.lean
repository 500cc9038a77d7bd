import ModuleLowering.Proofs.Lowering.Failures
import ModuleLowering.Proofs.Text.Order

namespace ModuleLowering

open Text

inductive Phase
  | imports
  | exports
  | references
  deriving DecidableEq

def Phase.all : List Phase := [imports, exports, references]

def ModuleItem.isImport : ModuleItem → Bool
  | .imports _ => true
  | .exports _ => false

namespace Context

def phaseEdits (x : Context) (m : SourceModule) : Phase → Except Diagnostic (List Edit)
  | .imports => (x.itemEdits (m.items.filter (·.isImport))).toExcept
  | .exports => (x.itemEdits (m.items.filter (!·.isImport))).toExcept
  | .references => (x.referencesEdits (m.items.filterMap consumedSpan)).toExcept

def runPhases (x : Context) (m : SourceModule) (order : List Phase) (recorded : List Edit) :
    Except Diagnostic (List Edit) :=
  order.foldlM (fun es phase => (x.phaseEdits m phase).map (es ++ ·)) recorded

variable {x : Context} {m : SourceModule}

theorem runPhases_eq {edits : Phase → List Edit} (h : ∀ phase, x.phaseEdits m phase = .ok (edits phase))
    (order : List Phase) (recorded : List Edit) :
    x.runPhases m order recorded = .ok (recorded ++ (order.map edits).flatten) := by
  induction order generalizing recorded with
  | nil => simp [runPhases, pure, Except.pure]
  | cons phase order ih =>
    have hcons : x.runPhases m (phase :: order) recorded = x.runPhases m order (recorded ++ edits phase) := by
      rw [runPhases, List.foldlM_cons, h phase]
      rfl
    rw [hcons, ih]
    simp [List.append_assoc]

theorem exists_itemEdits_of_phases {imports exports : List Edit} (himports : x.phaseEdits m .imports = .ok imports)
    (hexports : x.phaseEdits m .exports = .ok exports) :
    ∃ items, (x.itemEdits m.items).toExcept = .ok items ∧ (imports ++ exports).Perm items ∧
      (SpansDiffer imports exports → SameBySpan items (imports ++ exports)) := by
  obtain ⟨hall, rfl⟩ := Progress.collect_map_eq_ok_iff.1 himports
  obtain ⟨hall', rfl⟩ := Progress.collect_map_eq_ok_iff.1 hexports
  refine ⟨_, Progress.collect_map_eq_ok_iff.2 ⟨fun item hitem => ?_, rfl⟩, ?_, sameBySpan_flatMap_filter⟩
  · cases hkind : item.isImport with
    | true => exact hall item (List.mem_filter.2 ⟨hitem, hkind⟩)
    | false => exact hall' item (List.mem_filter.2 ⟨hitem, by simp [hkind]⟩)
  · rw [← List.flatMap_append]
    exact (List.filter_append_perm _ _).flatMap_right _

variable {source : List Char} {stop : Nat} {rs : List Stream.Reading}

theorem start_lt_stop_of_imports (h : x.stream.Readings stop m.items rs) (hs : x.stream.WellFormed source)
    {imports : List Edit} (himports : x.phaseEdits m .imports = .ok imports) {e : Edit} (he : e ∈ imports) :
    e.span.start < e.span.stop := by
  obtain ⟨es, hes, he⟩ := Progress.exists_of_mem_collect himports he
  obtain ⟨item, hitem, hes⟩ := List.mem_map.1 hes
  obtain ⟨hitem, himport⟩ := List.mem_filter.1 hitem
  cases item with
  | exports st => cases himport
  | imports st =>
    cases hes
    obtain rfl := List.mem_singleton.1 he
    rw [h.items_eq] at hitem
    obtain ⟨r, hr, heq⟩ := List.mem_map.1 hitem
    have hconsumed : consumedSpan r.item = some st.span := by
      rw [heq]
      rfl
    have hspan := Stream.consumedSpan_of_reads (h.reads r hr) (h.lt r hr) hconsumed
    change st.span.start < st.span.stop
    rw [hspan, x.stream.spanOf_of_lt (h.lt r hr)]
    exact hs.offsetAt_lt_stopBefore (h.lt r hr) ((h.reads r hr).next_le_size hs)

theorem start_lt_stop_of_references (hs : x.stream.WellFormed source) {spans : List Span} {references : List Edit}
    (hreferences : (x.referencesEdits spans).toExcept = .ok references) {e : Edit} (he : e ∈ references) :
    e.span.start < e.span.stop := by
  obtain ⟨_, _, _, _, hrewritten, rfl⟩ := rewritten_of_mem hreferences he
  exact hs.start_lt_stop hrewritten.token

theorem spansDiffer_of_apart {es fs : List Edit} (hes : ∀ e ∈ es, e.span.start < e.span.stop)
    (h : ∀ e ∈ es, ∀ f ∈ fs, e.span.Apart f.span) : SpansDiffer es fs := by
  intro e he f hf heq
  have hlt := hes e he
  rcases h e he f hf with hle | hle <;> rw [← heq] at hle <;> omega

theorem phases_differ (h : x.stream.Readings stop m.items rs) (hs : x.stream.WellFormed source)
    {edits : Phase → List Edit} (hedits : ∀ phase, x.phaseEdits m phase = .ok (edits phase)) :
    (Phase.all.map edits).Pairwise SpansDiffer := by
  obtain ⟨items, hitems, hperm, _⟩ := exists_itemEdits_of_phases (hedits .imports) (hedits .exports)
  have hapart : (edits .imports ++ edits .exports ++ edits .references).Pairwise fun a b => a.span.Apart b.span :=
    ((hperm.append_right _).pairwise_iff Span.Apart.symm).2 (h.apart hs hitems (hedits .references))
  obtain ⟨hstatements, _, hnames⟩ := List.pairwise_append.1 hapart
  obtain ⟨_, _, himports⟩ := List.pairwise_append.1 hstatements
  have hreferences (es : List Edit) (hsub : es ⊆ edits .imports ++ edits .exports) :
      SpansDiffer es (edits .references) :=
    (spansDiffer_of_apart (fun f hf => start_lt_stop_of_references hs (hedits .references) hf)
      fun f hf e he => (hnames e (hsub he) f hf).symm).symm
  refine List.pairwise_cons.2 ⟨fun part hpart => ?_, List.pairwise_pair.2 ?_⟩
  · rcases List.mem_pair.1 hpart with rfl | rfl
    · exact spansDiffer_of_apart (fun e he => start_lt_stop_of_imports h hs (hedits .imports) he) himports
    · exact hreferences _ (List.subset_append_left _ _)
  · exact hreferences _ (List.subset_append_right _ _)

end Context

/-- The three phases record edits that make the same text in every order, and with the prologue it is the text
that lowering makes in one pass over the statements. -/
theorem phases_commute {source : List Char} {s : Stream} {m : SourceModule} (hs : scan source = .ok s)
    (hm : s.toModule = .ok m)
    (hok : ∀ phase, ∃ es, (Context.ofModule source s m true).phaseEdits m phase = .ok es) :
    let x := Context.ofModule source s m true
    (∃ text, ∀ order, order.Perm Phase.all → (x.runPhases m order []).map (applyEdits source) = .ok text) ∧
    ∃ lowered, x.edits m = .ok lowered ∧ ∀ order, order.Perm Phase.all → ∃ es, x.runPhases m order [] = .ok es ∧
      applyEdits source (es ++ [prologueEdit source x.requirements.helpers m.hasExports]) =
        applyEdits source lowered := by
  intro x
  choose edits hedits using hok
  have hformed := Stream.wellFormed_of_scan hs
  obtain ⟨_, rs, hrs⟩ := Stream.readings_of_toModule hm
  have hdiffer := Context.phases_differ (x := x) hrs hformed hedits
  have hsame {order : List Phase} (horder : order.Perm Phase.all) :
      SameBySpan (order.map edits).flatten (Phase.all.map edits).flatten :=
    (sameBySpan_flatten_of_perm (horder.map edits).symm hdiffer).symm
  refine ⟨⟨applyEdits source (Phase.all.map edits).flatten, fun order horder => ?_⟩, ?_⟩
  · rw [Context.runPhases_eq hedits]
    exact congrArg Except.ok ((hsame horder).applyEdits_eq source)
  · obtain ⟨items, hitems, _, hstatements⟩ :=
      Context.exists_itemEdits_of_phases (hedits .imports) (hedits .exports)
    have himports := (List.pairwise_cons.1 hdiffer).1 _ List.mem_cons_self
    have hlowered : SameBySpan (Phase.all.map edits).flatten (items ++ edits .references) := by
      have h := (hstatements himports).symm.append_right (edits .references)
      simpa [Phase.all] using h
    refine ⟨items ++ edits .references ++ [prologueEdit source x.requirements.helpers m.hasExports], ?_,
      fun order horder => ⟨_, Context.runPhases_eq hedits order [], ?_⟩⟩
    · exact bind_eq_ok_iff.2 ⟨items, hitems, bind_eq_ok_iff.2 ⟨edits .references, hedits .references, rfl⟩⟩
    · exact (((hsame horder).trans hlowered).append_right _).applyEdits_eq source

theorem phases_commute_adjacent :
    let source := "import a from 'm';export default a;export const b = a, c = 1;a();".toList
    ∃ s m, scan source = .ok s ∧ s.toModule = .ok m ∧
      let x := Context.ofModule source s m true
      ∃ text, (x.runPhases m [.imports, .exports, .references] []).map (applyEdits source) = .ok text ∧
        (x.runPhases m [.references, .exports, .imports] []).map (applyEdits source) = .ok text := by
  intro source
  obtain ⟨s, m, hs, hm, h⟩ := exists_of_acceptsModule source (fun s m => Phase.all.all fun phase =>
    ((Context.ofModule source s m true).phaseEdits m phase).toOption.any fun (es : List Edit) => decide (1 ≤ es.length))
    (by decide +kernel)
  obtain ⟨⟨text, htext⟩, _⟩ := phases_commute hs hm fun phase => by
    obtain ⟨es, hes, _⟩ := exists_ok_of_test _ (List.all_eq_true.1 h phase (by cases phase <;> decide))
    exact ⟨es, hes⟩
  exact ⟨s, m, hs, hm, text, htext _ (.refl _), htext _ (by decide)⟩

end ModuleLowering
