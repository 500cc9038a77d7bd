import ModuleLowering.Proofs.Lowering.Edits
import ModuleLowering.Proofs.Lowering.Requires

namespace ModuleLowering

open Text

namespace Progress

variable {α β : Type}

theorem collect_map_eq_ok_iff {f : β → Except Diagnostic (List α)} {xs : List β} {ys : List α} :
    (collect (xs.map f)).toExcept = .ok ys ↔
      (∀ x ∈ xs, ∃ zs, f x = .ok zs) ∧ ys = xs.flatMap fun x => (f x).toOption.getD [] := by
  induction xs generalizing ys with
  | nil =>
    change (Except.ok [] : Except Diagnostic (List α)) = .ok ys ↔ _
    simp [eq_comm]
  | cons x xs ih =>
    rw [List.map_cons, collect_cons, bind_eq_ok_iff, List.forall_mem_cons, List.flatMap_cons]
    constructor
    · rintro ⟨first, hfirst, h⟩
      obtain ⟨rest, hrest, rfl⟩ := map_eq_ok_iff.1 h
      obtain ⟨hall, rfl⟩ := ih.1 hrest
      exact ⟨⟨⟨first, hfirst⟩, hall⟩, by rw [hfirst]; rfl⟩
    · rintro ⟨⟨⟨first, hfirst⟩, hall⟩, rfl⟩
      exact ⟨first, hfirst, map_eq_ok_iff.2 ⟨_, ih.2 ⟨hall, rfl⟩, by rw [hfirst]; rfl⟩⟩

theorem collect_map_eq_error_iff {f : β → Except Diagnostic (List α)} {xs : List β} {d : Diagnostic} :
    (collect (xs.map f)).toExcept = .error d ↔
      ∃ first x later, xs = first ++ x :: later ∧ (∀ y ∈ first, ∃ zs, f y = .ok zs) ∧ f x = .error d := by
  induction xs with
  | nil =>
    constructor
    · intro h
      cases h
    · rintro ⟨first, x, later, hxs, _⟩
      simp at hxs
  | cons x xs ih =>
    rw [List.map_cons, collect_cons, bind_eq_error_iff]
    simp only [map_eq_error_iff, ih]
    constructor
    · rintro (hx | ⟨zs, hx, first, y, later, rfl, hfirst, hy⟩)
      · exact ⟨[], x, xs, rfl, by simp, hx⟩
      · exact ⟨x :: first, y, later, rfl, List.forall_mem_cons.2 ⟨⟨zs, hx⟩, hfirst⟩, hy⟩
    · rintro ⟨first, y, later, hxs, hfirst, hy⟩
      cases first with
      | nil =>
        cases hxs
        exact .inl hy
      | cons z first =>
        cases hxs
        obtain ⟨⟨zs, hz⟩, hfirst⟩ := List.forall_mem_cons.1 hfirst
        exact .inr ⟨zs, hz, first, y, later, rfl, hfirst, hy⟩

end Progress

namespace Context

theorem referenceEdits_error_iff {x : Context} {i : Nat} {t : Token} {d : Diagnostic} :
    x.referenceEdits i t = .error d ↔ d = ⟨.unsupported .stringNamedTag, t.start⟩ ∧ t.role = some .jsxTag ∧
      ∃ o a raw value, x.bindings.origin? t.text = some o ∧ x.requirements.access o = some a ∧
        o.imported = .named (.literal raw value) := by
  unfold referenceEdits
  cases ho : x.bindings.origin? t.text with
  | none => simp
  | some o =>
    cases ha : x.requirements.access o with
    | none => simp [ha]
    | some a =>
      obtain ⟨specifier, imported⟩ := o
      rcases imported with _ | ⟨_ | ⟨raw, value⟩⟩ | _ <;> by_cases hrole : t.role = some .jsxTag <;>
        simp [hrole, ha, ModuleName.isLiteral, eq_comm]

end Context

namespace Requirements.Named

variable {items : List ModuleItem} {names : NameRegistry} {rs : Requirements}

theorem exists_access (h : Named items names rs) {name : String} {o : Origin}
    (ho : (name, o) ∈ importedNames items) (hne : o.imported ≠ .everything) : ∃ a, rs.access o = some a := by
  obtain ⟨item, hitem, huses⟩ := exists_uses_of_mem_importedNames ho
  obtain ⟨r, hr, hspecifier⟩ := h.exists_of_itemsFor hitem
  rw [← hspecifier] at hitem
  obtain ⟨a, ha, _⟩ := h.provides hr hitem huses hne
  exact ⟨a, by rw [← ha, hspecifier]⟩

theorem exists_reexportAccess_of_mem (h : Named items names rs) {span : Span}
    {specifiers : List ExportSpecifier} {specifier : Specifier}
    (hitem : .exports (.namesFrom span specifiers specifier) ∈ items) {e : ExportSpecifier} (he : e ∈ specifiers) :
    ∃ a, rs.reexportAccess specifier.value e.source = some a := by
  have hfor : .exports (.namesFrom span specifiers specifier) ∈ itemsFor specifier.value items :=
    List.mem_filter.2 ⟨hitem, by simp [ModuleItem.isFor, ModuleItem.specifier?]⟩
  obtain ⟨r, hr, hspecifier⟩ := h.exists_of_itemsFor hfor
  rw [← hspecifier] at hfor ⊢
  exact h.exists_reexportAccess hr hfor (List.mem_map_of_mem he)

end Requirements.Named

namespace Context

variable {items : List ModuleItem} {names : NameRegistry} {x : Context}

theorem exists_exportChanges (h : Requirements.Named items names x.requirements) {st : ExportStatement}
    (hst : .exports st ∈ items) : ∃ changes, x.exportChanges st = .ok changes := by
  cases st with
  | namesFrom span specifiers specifier =>
    have hgetter (e : ExportSpecifier) (he : e ∈ specifiers) :
        ∃ line, x.getterLine specifier.value span.start e = .ok line ∧ True := by
      obtain ⟨a, ha⟩ := h.exists_reexportAccess_of_mem hst he
      exact ⟨.getter e.exported a, by rw [getterLine, ha], trivial⟩
    obtain ⟨getters, hgetters, _⟩ := exists_mapM_eq_ok hgetter
    exact ⟨_, by rw [exportChanges, hgetters]; rfl⟩
  | _ => exact ⟨_, rfl⟩

theorem exists_itemEdits (h : Requirements.Named items names x.requirements) {part : List ModuleItem}
    (hpart : part ⊆ items) : ∃ es, (x.itemEdits part).toExcept = .ok es := by
  refine ⟨_, Progress.collect_map_eq_ok_iff.2 ⟨fun item hitem => ?_, rfl⟩⟩
  cases item with
  | imports st => exact ⟨_, rfl⟩
  | exports st =>
    obtain ⟨changes, hchanges⟩ := exists_exportChanges h (hpart hitem)
    exact ⟨_, by rw [itemChanges, hchanges]; rfl⟩

end Context

structure SourceModule.StringTag (m : SourceModule) (s : Stream) (i : Nat) (t : Token) : Prop where
  token : s.tokens[i]? = some t
  name : t.kind = .identifier
  role : t.role = some .jsxTag
  outside : ∀ span ∈ m.items.filterMap Context.consumedSpan, t.span.Apart span
  imported : ∃ specifier raw value, m.bindings.origin? t.text = some ⟨specifier, .named (.literal raw value)⟩ ∧
    value ≠ "default"

namespace Stream

variable {s : Stream} {source : List Char}

theorem mem_valueNames_of_tag {i : Nat} {t : Token} (ht : s.tokens[i]? = some t) (hkind : t.kind = .identifier)
    (hrole : t.role = some .jsxTag) : (t, i) ∈ s.valueNames := by
  refine List.mem_filter.2 ⟨List.mem_zipIdx_iff_getElem?.2 (by simpa using ht), ?_⟩
  simp [hkind, hrole, Role.isValue]

theorem WellFormed.apart_spanOf_iff (hs : s.WellFormed source) {i a b : Nat} {t : Token}
    (ht : s.tokens[i]? = some t) (hab : a < b) (hb : b ≤ s.tokens.size) :
    t.span.Apart (s.spanOf a b) ↔ (s.spanOf a b).stop ≤ t.start ∨ t.start < (s.spanOf a b).start := by
  have hlt := hs.start_lt_stop ht
  rw [s.spanOf_of_lt hab, Span.Apart, or_comm]
  refine or_congr_right ⟨fun h => Nat.lt_of_lt_of_le hlt h, fun h => ?_⟩
  obtain ⟨first, ha⟩ : ∃ first, s.tokens[a]? = some first :=
    ⟨_, Array.getElem?_eq_getElem (show a < s.tokens.size by omega)⟩
  dsimp only at h ⊢
  rw [offsetAt_eq ha] at h ⊢
  rcases Nat.lt_trichotomy i a with hia | rfl | hai
  · exact hs.stop_le_start ht ha hia
  · rw [ha] at ht
    cases ht
    exact absurd h (Nat.lt_irrefl _)
  · have := hs.stop_le_start ha ht hai
    have := hs.start_lt_stop ha
    omega

variable {m : SourceModule}

theorem Readings.mem_outsideSpans_iff {stop : Nat} {rs : List Reading} (h : s.Readings stop m.items rs)
    (hs : s.WellFormed source) {i : Nat} {t : Token} (hname : (t, i) ∈ s.valueNames) :
    (t, i) ∈ outsideSpans (m.items.filterMap Context.consumedSpan) s.valueNames ↔
      ∀ span ∈ m.items.filterMap Context.consumedSpan, t.span.Apart span := by
  have hiff (span : Span) (hspan : span ∈ m.items.filterMap Context.consumedSpan) :
      t.span.Apart span ↔ span.stop ≤ t.start ∨ t.start < span.start := by
    rw [h.items_eq, List.filterMap_map] at hspan
    obtain ⟨r, hr, hspan⟩ := List.mem_filterMap.1 hspan
    rw [consumedSpan_of_reads (h.reads r hr) (h.lt r hr) hspan]
    exact hs.apart_spanOf_iff (mem_valueNames hname).1 (h.lt r hr) ((h.reads r hr).next_le_size hs)
  rw [ModuleLowering.mem_outsideSpans_iff (sorted_of_sequential (h.consumed_ordered hs) (h.consumed_le hs))
    (valueNames_starts hs), and_iff_right hname]
  exact forall₂_congr fun span hspan => (hiff span hspan).symm

end Stream

theorem Binds.plain_of_origin? {items : List ModuleItem} {b : Bindings} (h : Binds (importedNames items) b)
    {name specifier : String} {n : ModuleName} (ho : b.origin? name = some ⟨specifier, .named n⟩) :
    n.value ≠ "default" := by
  obtain ⟨_, _, hplain, _⟩ := exists_uses_of_mem_importedNames (h.mem_of_origin? ho)
  simpa [ModuleName.isDefault] using hplain

namespace Context

variable {source : List Char} {s : Stream} {m : SourceModule} {d : Diagnostic}

theorem edits_error (hs : scan source = .ok s) (hm : s.toModule = .ok m)
    (h : (ofModule source s m true).edits m = .error d) :
    ∃ i t, m.StringTag s i t ∧ d = ⟨.unsupported .stringNamedTag, t.start⟩ := by
  have hformed := Stream.wellFormed_of_scan hs
  have hbinds := Stream.binds_of_toModule hm
  obtain ⟨_, rs, hrs⟩ := Stream.readings_of_toModule hm
  obtain ⟨items, hitems⟩ := exists_itemEdits (x := ofModule source s m true)
    (Requirements.named_allocate m.items (.ofStream s)) (List.Subset.refl _)
  rcases bind_eq_error_iff.1 h with herror | ⟨_, _, h⟩
  · rw [hitems] at herror
    cases herror
  rcases bind_eq_error_iff.1 h with herror | ⟨_, _, h⟩
  · obtain ⟨first, ⟨t, i⟩, later, hnames, _, herror⟩ := Progress.collect_map_eq_error_iff.1 herror
    have hmem : (t, i) ∈ outsideSpans (m.items.filterMap consumedSpan) s.valueNames := hnames ▸ by simp
    obtain ⟨rfl, hrole, ⟨specifier, _⟩, _, raw, value, ho, _, rfl⟩ := referenceEdits_error_iff.1 herror
    have hname := (outsideSpans_sublist _ _).subset hmem
    obtain ⟨ht, hkind, _⟩ := Stream.mem_valueNames hname
    exact ⟨i, t, ⟨ht, hkind, hrole, (hrs.mem_outsideSpans_iff hformed hname).1 hmem, specifier, raw, value, ho,
      hbinds.plain_of_origin? ho⟩, rfl⟩
  · cases h

theorem exists_edits_error (hs : scan source = .ok s) (hm : s.toModule = .ok m) {i : Nat} {t : Token}
    (h : m.StringTag s i t) : ∃ d, (ofModule source s m true).edits m = .error d := by
  have hformed := Stream.wellFormed_of_scan hs
  have hbinds := Stream.binds_of_toModule hm
  obtain ⟨_, rs, hrs⟩ := Stream.readings_of_toModule hm
  obtain ⟨specifier, raw, value, ho, _⟩ := h.imported
  obtain ⟨a, ha⟩ := (Requirements.named_allocate m.items (.ofStream s)).exists_access (hbinds.mem_of_origin? ho) nofun
  have hname := Stream.mem_valueNames_of_tag h.token h.name h.role
  cases hes : (ofModule source s m true).edits m with
  | error d => exact ⟨d, rfl⟩
  | ok es =>
    obtain ⟨_, references, _, hreferences, _⟩ := exists_of_edits hes
    obtain ⟨edits, hedits⟩ := (Progress.collect_map_eq_ok_iff.1 hreferences).1 (t, i)
      ((hrs.mem_outsideSpans_iff hformed hname).2 h.outside)
    have herror := (referenceEdits_error_iff (x := ofModule source s m true) (i := i) (t := t)).2
      ⟨rfl, h.role, _, a, raw, value, ho, ha, rfl⟩
    dsimp only at hedits
    rw [herror] at hedits
    cases hedits

end Context

theorem lowerStream_error_cases {source : List Char} {options : Options} {s : Stream} {d : Diagnostic}
    (h : lowerStream source options s = .error d) :
    s.toModule = .error d ∨ ∃ m, s.toModule = .ok m ∧ (Context.ofModule source s m true).edits m = .error d := by
  rcases bind_eq_error_iff.1 h with h | ⟨m, hm, h⟩
  · exact .inl h
  · split at h
    · cases h
    · rcases bind_eq_error_iff.1 h with h | ⟨_, _, h⟩
      · exact .inr ⟨m, hm, h⟩
      · cases h

theorem lowerStream_error_iff {source : List Char} {s : Stream} (hs : scan source = .ok s) (options : Options) :
    (∃ d, lowerStream source options s = .error d) ↔
      (∃ d, s.toModule = .error d) ∨ ∃ m i t, s.toModule = .ok m ∧ m.StringTag s i t := by
  constructor
  · rintro ⟨d, h⟩
    rcases lowerStream_error_cases h with herror | ⟨m, hm, herror⟩
    · exact .inl ⟨d, herror⟩
    · obtain ⟨i, t, htag, _⟩ := Context.edits_error hs hm herror
      exact .inr ⟨m, i, t, hm, htag⟩
  · rintro (⟨d, h⟩ | ⟨m, i, t, hm, htag⟩)
    · exact ⟨d, by rw [lowerStream, h]; rfl⟩
    · obtain ⟨d, hd⟩ := Context.exists_edits_error hs hm htag
      obtain ⟨specifier, raw, value, ho, _⟩ := htag.imported
      have hsyntax : m.hasModuleSyntax := by
        have hmem := (Stream.binds_of_toModule hm).mem_of_origin? ho
        cases hitems : m.items with
        | nil => simp [hitems, importedNames] at hmem
        | cons => simp [SourceModule.hasModuleSyntax, hitems]
      refine ⟨d, ?_⟩
      rw [lowerStream, hm]
      simp only [bind, Except.bind, hsyntax, Bool.not_true, Bool.false_eq_true, if_false, hd]

/-- A source cannot be lowered exactly if it cannot be scanned, its statements are malformed, or a JSX tag names
an import by a string. Every other access that lowering asks for is there. -/
theorem lower_fails_iff {options : Options} (h : options.imports) (source : List Char) :
    ((∃ d, lower source options = .error (.rejected d)) ↔
      (∃ e, scan source = .error (.rejected e)) ∨ ∃ s, scan source = .ok s ∧
        ((∃ d, s.toModule = .error d) ∨ ∃ m i t, s.toModule = .ok m ∧ m.StringTag s i t)) ∧
    (∀ offset, lower source options = .error (.splitCharacter offset) ↔
      scan source = .error (.splitCharacter offset)) ∧
    ∀ s m, scan source = .ok s → s.toModule = .ok m →
      let x := Context.ofModule source s m true
      (∀ b ∈ m.bindings.entries, ∀ o, b.origin = some o → o.imported ≠ .everything →
        ∃ a, x.requirements.access o = some a) ∧
      (∀ span specifiers specifier, .exports (.namesFrom span specifiers specifier) ∈ m.items →
        ∀ e ∈ specifiers, ∃ a, x.requirements.reexportAccess specifier.value e.source = some a) ∧
      ∀ st, .exports st ∈ m.items → ∃ changes, x.exportChanges st = .ok changes := by
  refine ⟨?_, fun offset => ?_, fun s m _ hm => ?_⟩
  · unfold lower
    rw [h]
    cases hs : scan source with
    | error failure => cases failure <;> simp [Failure.map]
    | ok s =>
      have hiff := lowerStream_error_iff hs options
      cases hstream : lowerStream source options s <;> simp [hstream, Except.mapError] at hiff ⊢ <;> exact hiff
  · unfold lower
    rw [h]
    cases scan source with
    | error failure => cases failure <;> simp [Failure.map]
    | ok s => cases hstream : lowerStream source options s <;> simp [hstream, Except.mapError]
  · have hnamed := Requirements.named_allocate m.items (.ofStream s)
    have hbinds := Stream.binds_of_toModule hm
    exact ⟨fun b hb o ho hne => hnamed.exists_access (hbinds.entries b hb o ho) hne,
      fun _ _ _ hitem _ he => hnamed.exists_reexportAccess_of_mem hitem he,
      fun _ hst => Context.exists_exportChanges (x := Context.ofModule source s m true) hnamed hst⟩

theorem lower_fails_string_tag :
    ∃ d, lower "import \x7b 'a-b' as X \x7d from 'm';\nf(<X />);".toList .lowering = .error (.rejected d) := by
  obtain ⟨s, m, hs, hm, h⟩ := exists_of_acceptsModule "import \x7b 'a-b' as X \x7d from 'm';\nf(<X />);".toList
    (fun s m => s.tokens[12]?.any fun (t : Token) => t.kind = .identifier && t.role = some .jsxTag &&
      decide (∀ span ∈ m.items.filterMap Context.consumedSpan, t.span.Apart span) &&
      decide (m.bindings.origin? t.text = some ⟨"m", .named (.literal "'a-b'" "a-b")⟩)) (by decide +kernel)
  obtain ⟨t, ht, h⟩ := (Option.any_eq_true _ _).1 h
  simp only [Bool.and_eq_true, decide_eq_true_eq] at h
  obtain ⟨⟨⟨hkind, hrole⟩, hout⟩, horigin⟩ := h
  exact (lower_fails_iff rfl _).1.2 (.inr ⟨s, hs, .inr ⟨m, 12, t, hm,
    ⟨ht, hkind, hrole, hout, _, _, _, horigin, by decide⟩⟩⟩)

end ModuleLowering
