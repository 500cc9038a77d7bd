import ModuleLowering.Proofs.Lowering.ReferenceEdits

namespace ModuleLowering

open Text

namespace Stream

variable {s : Stream} {source : List Char}

theorem Readings.consumed_ordered {stop : Nat} {items : List ModuleItem} {rs : List Reading}
    (h : s.Readings stop items rs) (hs : s.WellFormed source) :
    (items.filterMap Context.consumedSpan).Pairwise fun a b => a.stop ≤ b.start := by
  rw [h.items_eq, List.filterMap_map]
  refine List.pairwise_filterMap.2 (h.ordered.imp_of_mem fun {r r'} hr hr' hle a ha b hb => ?_)
  rw [consumedSpan_of_reads (h.reads r hr) (h.lt r hr) ha,
    consumedSpan_of_reads (h.reads r' hr') (h.lt r' hr') hb]
  exact hs.spanOf_sequential hle (Nat.le_of_lt (h.lt r' hr')) ((h.reads r' hr').next_le_size hs)

theorem Readings.consumed_le {stop : Nat} {items : List ModuleItem} {rs : List Reading}
    (h : s.Readings stop items rs) (hs : s.WellFormed source) :
    ∀ c ∈ items.filterMap Context.consumedSpan, c.start ≤ c.stop := by
  rw [h.items_eq, List.filterMap_map]
  intro c hc
  obtain ⟨r, hr, hspan⟩ := List.mem_filterMap.1 hc
  rw [consumedSpan_of_reads (h.reads r hr) (h.lt r hr) hspan]
  exact (hs.spanOf_in (Nat.le_of_lt (h.lt r hr)) ((h.reads r hr).next_le_size hs)).le

theorem valueNames_starts (hs : s.WellFormed source) :
    s.valueNames.Pairwise fun a b => a.1.start ≤ b.1.start := by
  apply s.valueNames_ordered.imp_of_mem
  intro a b ha hb hlt
  have ha := (mem_valueNames ha).1
  have hb := (mem_valueNames hb).1
  have := hs.start_lt_stop ha
  have := hs.stop_le_start ha hb hlt
  omega

theorem not_keyword_of_valueName {t : Token} {k : Nat} (h : (t, k) ∈ s.valueNames) {word : Keyword} {i : Nat}
    (hi : s.isAt i (.keyword word)) : k ≠ i := by
  rintro rfl
  obtain ⟨ht, hkind, _⟩ := mem_valueNames h
  cases kind_eq_of_isAt hi (isAt_iff.2 ⟨t, ht, hkind⟩)

theorem Part.apart {r : Reading} {items : List ModuleItem} {a b k n : Nat} {x : Context}
    (hs : x.stream.WellFormed source) (hpart : x.stream.Part r a b) (hr : r.next ≤ x.stream.tokens.size)
    (hlt : r.first < r.next) (hmem : r.item ∈ items)
    (hordered : (items.filterMap Context.consumedSpan).Pairwise fun a b => a.stop ≤ b.start)
    (hle : ∀ c ∈ items.filterMap Context.consumedSpan, c.start ≤ c.stop)
    (hk : Rewrites x (items.filterMap Context.consumedSpan) k n) : b ≤ k ∨ n ≤ a := by
  obtain ⟨rfl, t, o, hout, _⟩ := hk
  have hname := (outsideSpans_sublist _ _).subset hout
  cases hpart with
  | statement h =>
    have hc : x.stream.spanOf r.first r.next ∈ items.filterMap Context.consumedSpan :=
      List.mem_filterMap.2 ⟨r.item, hmem, h⟩
    have hstart := offsetAt_eq (mem_valueNames hname).1
    have hapart := ((mem_outsideSpans_iff (sorted_of_sequential hordered hle) (valueNames_starts hs)).1 hout).2 _ hc
    rw [x.stream.spanOf_of_lt hlt, ← hstart] at hapart
    rcases hapart with hapart | hapart
    · refine .inl (Nat.le_of_not_lt fun hkn => ?_)
      have := hs.offsetAt_lt_stopBefore hkn hr
      dsimp only at hapart
      omega
    · refine .inr (Nat.le_of_not_lt fun hkn => ?_)
      rcases Nat.eq_or_lt_of_le (Nat.le_of_lt_succ hkn) with heq | hlt'
      · rw [heq] at hapart
        exact Nat.lt_irrefl _ hapart
      · have := hs.offsetAt_lt_offsetAt hlt' (Nat.le_of_lt (lt_size_of_getElem? (mem_valueNames hname).1))
        dsimp only at hapart
        omega
  | keyword h =>
    have := not_keyword_of_valueName hname h
    omega
  | keywords h h' =>
    have := not_keyword_of_valueName hname h
    have := not_keyword_of_valueName hname h'
    omega
  | point => omega

end Stream

theorem isBoundary_prologueOffset (source : List Char) : IsBoundary source (prologueOffset source) := by
  obtain ⟨rest, hrest⟩ : ∃ rest, prologueLead source ++ rest = source := by
    unfold prologueLead
    split
    · exact ⟨_, List.take_append_drop _ _⟩
    · exact ⟨source, rfl⟩
  have hlead := isBoundary_byteLength (prologueLead source) rest
  rwa [hrest] at hlead

/-- What lowering replaces in a source: import statements, export lists, the keywords of other exports, and
names that are imported where they are values. -/
inductive Replaced (s : Stream) (m : SourceModule) : Span → Prop
  | importStatement {st : ImportStatement} (h : .imports st ∈ m.items) : Replaced s m st.span
  | exportList {st : ExportStatement} {span : Span} (h : .exports st ∈ m.items)
      (hspan : st.consumedSpan = some span) : Replaced s m span
  | exportKeyword {item : ModuleItem} {i : Nat} (h : item ∈ m.items) (hstart : item.start = s.offsetAt i)
      (hi : s.isAt i (.keyword .«export»)) : Replaced s m ⟨s.offsetAt i, s.stopBefore (i + 1)⟩
  | defaultKeywords {item : ModuleItem} {i : Nat} (h : item ∈ m.items) (hstart : item.start = s.offsetAt i)
      (hi : s.isAt i (.keyword .«export»)) (hdefault : s.isAt (i + 1) (.keyword .default)) :
      Replaced s m ⟨s.offsetAt i, s.stopBefore (i + 2)⟩
  | name {t : Token} {i : Nat} {o : Origin} (ht : s.tokens[i]? = some t) (hkind : t.kind = .identifier)
      (hrole : t.role.any (·.isValue)) (ho : m.bindings.origin? t.text = some o) : Replaced s m t.span

namespace Stream

variable {s : Stream} {source : List Char}

theorem Part.replaced {m : SourceModule} {r : Reading} {a b : Nat} (hpart : s.Part r a b) (hr : s.Reads r)
    (hmem : r.item ∈ m.items) :
    (s.spanOf a b).isEmpty ∨ Replaced s m (s.spanOf a b) := by
  cases hpart with
  | statement h =>
    right
    cases hitem : r.item with
    | imports st =>
      rw [hitem] at h hmem
      rw [← Option.some.inj h]
      exact .importStatement hmem
    | exports st =>
      rw [hitem] at h hmem
      exact .exportList hmem h
  | keyword h =>
    rw [s.spanOf_of_lt (Nat.lt_add_one _)]
    exact .inr (.exportKeyword hmem hr.start_eq h)
  | keywords h h' =>
    rw [s.spanOf_of_lt (Nat.lt_add_of_pos_right (by omega))]
    exact .inr (.defaultKeywords hmem hr.start_eq h h')
  | point => exact .inl (by simp [spanOf, Span.isEmpty])

theorem Part.bounds {r : Reading} {a b : Nat} (hpart : s.Part r a b) (hlt : r.first < r.next) :
    r.first < b := by
  cases hpart with
  | statement | keyword | keywords => omega
  | point h => exact h

variable {x : Context} {m : SourceModule} {stop : Nat} {rs : List Reading} {items references : List Edit}

theorem Readings.chain_items (h : x.stream.Readings stop m.items rs) (hs : x.stream.WellFormed source)
    (hitems : (x.itemEdits m.items).toExcept = .ok items) :
    x.stream.Chain (fun a b => ∃ r ∈ rs, x.stream.Part r a b) 0 x.stream.tokens.size
      (items.map (·.span)) := by
  rw [h.items_eq] at hitems
  exact chain_itemEdits h.reads h.lt (fun _ _ => Nat.zero_le _)
    (fun r hr => (h.reads r hr).next_le_size hs) h.ordered (Nat.zero_le _) hitems

theorem Readings.mem_items (h : x.stream.Readings stop m.items rs) {r : Reading} (hr : r ∈ rs) :
    r.item ∈ m.items := by
  rw [h.items_eq]
  exact List.mem_map_of_mem hr

theorem Readings.apart (h : x.stream.Readings stop m.items rs) (hs : x.stream.WellFormed source)
    (hitems : (x.itemEdits m.items).toExcept = .ok items)
    (hreferences : (x.referencesEdits (m.items.filterMap Context.consumedSpan)).toExcept = .ok references) :
    (items ++ references).Pairwise fun a b => a.span.Apart b.span := by
  have hchain := h.chain_items hs hitems
  have hchain' := chain_referencesEdits hreferences
  refine List.pairwise_append.2 ⟨List.pairwise_map.1 (hchain.pairwise hs (Nat.le_refl _)),
    List.pairwise_map.1 (hchain'.pairwise hs (Nat.le_refl _)), fun e he f hf => ?_⟩
  obtain ⟨a, b, hspan, _, hab, hb, r, hr, hpart⟩ := hchain.exists_of_mem (List.mem_map_of_mem he)
  obtain ⟨c, d, hspan', _, hcd, hd, hrewrites⟩ := hchain'.exists_of_mem (List.mem_map_of_mem hf)
  rw [hspan, hspan']
  rcases hpart.apart hs ((h.reads r hr).next_le_size hs) (h.lt r hr) (h.mem_items hr)
    (h.consumed_ordered hs) (h.consumed_le hs) hrewrites with hle | hle
  · exact .inl (hs.spanOf_sequential hle hcd hd)
  · exact .inr (hs.spanOf_sequential hle hab hb)

section

variable (h : x.stream.Readings stop m.items rs) (hs : x.stream.WellFormed source)
  (hx : x.bindings = m.bindings) (hitems : (x.itemEdits m.items).toExcept = .ok items)
  (hreferences : (x.referencesEdits (m.items.filterMap Context.consumedSpan)).toExcept = .ok references)
include h hs hx hitems hreferences

theorem Readings.run_of_mem {e : Edit} (he : e ∈ items ++ references) :
    ∃ a b, e.span = x.stream.spanOf a b ∧ a ≤ b ∧ 0 < b ∧ b ≤ x.stream.tokens.size ∧
      (e.span.isEmpty ∨ Replaced x.stream m e.span) := by
  rcases List.mem_append.1 he with he | he
  · obtain ⟨a, b, hspan, _, hab, hb, r, hr, hpart⟩ :=
      (h.chain_items hs hitems).exists_of_mem (List.mem_map_of_mem he)
    have hpos := hpart.bounds (h.lt r hr)
    refine ⟨a, b, hspan, hab, by omega, hb, ?_⟩
    rw [hspan]
    exact hpart.replaced (h.reads r hr) (h.mem_items hr)
  · obtain ⟨a, b, hspan, _, hab, hb, rfl, t, o, hmem, ho⟩ :=
      (chain_referencesEdits hreferences).exists_of_mem (List.mem_map_of_mem he)
    obtain ⟨ht, hkind, hrole⟩ := mem_valueNames ((outsideSpans_sublist _ _).subset hmem)
    refine ⟨a, a + 1, hspan, hab, Nat.succ_pos a, hb, .inr ?_⟩
    rw [hspan, ← span_eq_spanOf ht]
    exact .name ht hkind hrole (hx ▸ ho)

theorem Readings.lead_of_mem {e : Edit} (he : e ∈ items ++ references) :
    prologueOffset source ≤ e.span.start ∧ prologueOffset source < e.span.stop := by
  obtain ⟨a, b, hspan, hab, hpos, hb, _⟩ := h.run_of_mem hs hx hitems hreferences he
  rw [hspan]
  exact hs.lead_spanOf hab hpos hb

theorem Readings.in_of_mem {first e : Edit} (hfirst : first.span = .point (prologueOffset source))
    (he : e ∈ items ++ references ++ [first]) :
    e.span.In source ∧ (e.span.isEmpty ∨ Replaced x.stream m e.span) := by
  rcases List.mem_append.1 he with he | he
  · obtain ⟨a, b, hspan, hab, _, hb, hreplaced⟩ := h.run_of_mem hs hx hitems hreferences he
    exact ⟨hspan ▸ hs.spanOf_in hab hb, hreplaced⟩
  · rw [List.mem_singleton.1 he, hfirst]
    have hboundary := isBoundary_prologueOffset source
    exact ⟨⟨Nat.le_refl _, hboundary, hboundary⟩, .inl (by simp [Span.isEmpty, Span.point])⟩

end

end Stream

theorem Context.exists_of_edits {x : Context} {m : SourceModule} {es : List Edit} (h : x.edits m = .ok es) :
    ∃ items references, (x.itemEdits m.items).toExcept = .ok items ∧
      (x.referencesEdits (m.items.filterMap consumedSpan)).toExcept = .ok references ∧
      es = items ++ references ++ [prologueEdit x.source x.requirements.helpers m.hasExports] := by
  obtain ⟨items, hitems, h⟩ := bind_eq_ok_iff.1 h
  obtain ⟨references, hreferences, h⟩ := bind_eq_ok_iff.1 h
  cases h
  exact ⟨items, references, hitems, hreferences, rfl⟩

namespace Stream

variable {x : Context} {m : SourceModule} {stop : Nat} {rs : List Reading} {es : List Edit}

theorem Readings.edits_in (h : x.stream.Readings stop m.items rs) (hs : x.stream.WellFormed x.source)
    (hx : x.bindings = m.bindings) (hes : x.edits m = .ok es) :
    ∀ e ∈ es, e.span.In x.source ∧ (e.span.isEmpty ∨ Replaced x.stream m e.span) := by
  obtain ⟨items, references, hitems, hreferences, rfl⟩ := Context.exists_of_edits hes
  exact fun e he => h.in_of_mem hs hx hitems hreferences rfl he

theorem Readings.edits_apart (h : x.stream.Readings stop m.items rs) (hs : x.stream.WellFormed x.source)
    (hx : x.bindings = m.bindings) (hes : x.edits m = .ok es) :
    es.Pairwise fun a b => a.span.Apart b.span := by
  obtain ⟨items, references, hitems, hreferences, rfl⟩ := Context.exists_of_edits hes
  refine List.pairwise_append.2 ⟨h.apart hs hitems hreferences, List.pairwise_singleton _ _, fun e he f hf => ?_⟩
  rw [List.mem_singleton.1 hf]
  exact .inr (h.lead_of_mem hs hx hitems hreferences he).1

end Stream

theorem mergeSort_eq_cons (es : List Edit) (first : Edit) (hfirst : ∀ e ∈ es, ¬ e.le first) :
    ∃ rest, (es ++ [first]).mergeSort Edit.le = first :: rest ∧ rest.Perm es := by
  have hperm := (es ++ [first]).mergeSort_perm Edit.le
  have hsorted := pairwise_le_mergeSort (es ++ [first])
  cases hlist : (es ++ [first]).mergeSort Edit.le with
  | nil =>
    rw [hlist] at hperm
    simp at hperm
  | cons head rest =>
    rw [hlist] at hperm hsorted
    have hhead : head = first := by
      rcases List.mem_append.1 (hperm.mem_iff.1 List.mem_cons_self) with hmem | hmem
      · have hmem' : first ∈ head :: rest := hperm.mem_iff.2 (by simp)
        rcases List.mem_cons.1 hmem' with heq | hmem'
        · exact heq.symm
        · exact absurd ((List.pairwise_cons.1 hsorted).1 first hmem') (hfirst head hmem)
      · exact List.mem_singleton.1 hmem
    subst hhead
    exact ⟨rest, rfl, (hperm.trans List.perm_append_comm).cons_inv⟩

theorem lowerStream_eq {source : List Char} {s : Stream} {m : SourceModule} {es : List Edit}
    (hm : s.toModule = .ok m) (hes : (Context.ofModule source s m true).edits m = .ok es)
    (hitems : m.hasModuleSyntax) (options : Options) :
    lowerStream source options s = .ok (String.ofList (applyEdits source es) ++
      if options.addModuleExports then (suffixFor? m.entries).getD "" else "") := by
  unfold lowerStream
  rw [hm]
  simp only [bind, Except.bind, hitems, Bool.not_true, Bool.false_eq_true, if_false, hes]
  rfl

/-- Lowering replaces spans of the source that do not overlap, the prologue first, and copies everything
else. What it replaces and does not only insert at is an import statement, an export list, the keywords of
another export or a name that is imported. -/
theorem edits_woven {source : List Char} {s : Stream} {m : SourceModule} {es : List Edit}
    (hs : scan source = .ok s) (hm : s.toModule = .ok m)
    (hes : (Context.ofModule source s m true).edits m = .ok es) :
    (∀ e ∈ es, e.span.In source ∧ (e.span.isEmpty ∨ Replaced s m e.span)) ∧
    (es.mergeSort Edit.le).Pairwise (fun a b => a.span.stop ≤ b.span.start) ∧
    (∃ rest, es.mergeSort Edit.le =
        prologueEdit source (Context.ofModule source s m true).requirements.helpers m.hasExports :: rest ∧
      ∀ e ∈ rest, prologueOffset source ≤ e.span.start ∧ prologueOffset source < e.span.stop) ∧
    Woven 0 source (es.mergeSort Edit.le) (applyEdits source es) ∧
    (m.hasModuleSyntax → ∀ options, lowerStream source options s = .ok (String.ofList (applyEdits source es) ++
      if options.addModuleExports then (suffixFor? m.entries).getD "" else "")) := by
  have hformed := Stream.wellFormed_of_scan hs
  obtain ⟨stop, rs, hrs⟩ := Stream.readings_of_toModule hm
  have hin := hrs.edits_in (x := Context.ofModule source s m true) hformed rfl hes
  have hapart := hrs.edits_apart (x := Context.ofModule source s m true) hformed rfl hes
  have hlower := lowerStream_eq hm hes
  refine ⟨hin, sequential_of_apart (fun e he => (hin e he).1) hapart, ?_,
    woven_applyEdits (fun e he => (hin e he).1) hapart, hlower⟩
  obtain ⟨items, references, hitems, hreferences, rfl⟩ := Context.exists_of_edits hes
  have hlead : ∀ e ∈ items ++ references,
      prologueOffset source ≤ e.span.start ∧ prologueOffset source < e.span.stop := fun e he =>
    hrs.lead_of_mem (x := Context.ofModule source s m true) hformed rfl hitems hreferences he
  obtain ⟨rest, hsort, hperm⟩ := mergeSort_eq_cons (items ++ references)
    (prologueEdit source (Context.ofModule source s m true).requirements.helpers m.hasExports) fun e he hle => by
    have := hlead e he
    rw [Edit.le_iff] at hle
    simp only [prologueEdit, Span.point] at hle
    omega
  exact ⟨rest, hsort, fun e he => hlead e (hperm.mem_iff.1 he)⟩

theorem edits_woven_import : ∃ s m es, scan "import a from 'm';\na();".toList = .ok s ∧ s.toModule = .ok m ∧
    (Context.ofModule "import a from 'm';\na();".toList s m true).edits m = .ok es ∧ es.length = 3 ∧
    Woven 0 "import a from 'm';\na();".toList (es.mergeSort Edit.le)
      (applyEdits "import a from 'm';\na();".toList es) := by
  obtain ⟨s, m, hs, hm, h⟩ := exists_of_acceptsModule "import a from 'm';\na();".toList
    (fun s m => match (Context.ofModule "import a from 'm';\na();".toList s m true).edits m with
      | .ok es => es.length = 3
      | .error _ => false) (by decide +kernel)
  split at h
  · rename_i es hes
    exact ⟨s, m, es, hs, hm, hes, by simpa using h, (edits_woven hs hm hes).2.2.2.1⟩
  · cases h

end ModuleLowering
