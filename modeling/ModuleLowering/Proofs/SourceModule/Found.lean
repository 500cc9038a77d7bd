import ModuleLowering.Proofs.SourceModule.Overlooked

namespace ModuleLowering

open Text

namespace Stream

/-- An import or export keyword where a statement can begin: at the start of the source, after a semicolon
or after a line break. -/
structure BeginsStatement (s : Stream) (i : Nat) (t : Token) : Prop where
  token : s.tokens[i]? = some t
  keyword : s.isStatementKeyword i t
  begins : i = 0 ∨ s.isAt (i - 1) .semicolon ∨ t.lineBreak

variable {s : Stream} {source : List Char}

theorem Readings.exists_or_overlooked {stop i : Nat} {m : SourceModule} {rs : List Reading} {t : Token}
    (hs : s.WellFormed source) (h : s.Readings stop m.items rs) (hstop : s.Comes stop m)
    (hsize : s.tokens.size ≤ stop) (ht : s.BeginsStatement i t) :
    (∃ r ∈ rs, r.first = i) ∨ s.Overlooked i := by
  have hi := lt_size_of_getElem? ht.token
  have hkey := isModuleKeyword_of_isStatementKeyword ht.keyword
  rcases comes_or_overlooked hs hstop (by omega) ht.token hkey with ⟨n, hn⟩ | hover
  · exact .inl (h.complete i n t hn (by omega) ht.token ht.keyword)
  · exact .inr hover

theorem Readings.mem_starts_iff {stop i : Nat} {items : List ModuleItem} {rs : List Reading} {t : Token}
    (hs : s.WellFormed source) (h : s.Readings stop items rs) (ht : s.tokens[i]? = some t) :
    t.start ∈ items.map ModuleItem.start ↔ ∃ r ∈ rs, r.first = i := by
  have hi := lt_size_of_getElem? ht
  rw [h.starts, List.mem_map, ← offsetAt_eq ht]
  constructor
  · rintro ⟨r, hr, hstart⟩
    have hfirst := (h.reads r hr).first_lt_size
    refine ⟨r, hr, ?_⟩
    rcases Nat.lt_trichotomy r.first i with hlt | heq | hgt
    · have := hs.offsetAt_lt_offsetAt hlt (by omega)
      omega
    · exact heq
    · have := hs.offsetAt_lt_offsetAt hgt (by omega)
      omega
  · rintro ⟨r, hr, rfl⟩
    exact ⟨r, hr, rfl⟩

/-- The statements of a module are in order, and a keyword that begins a statement begins exactly one of
them unless it is overlooked. What is overlooked is in the head of an exported class, or on a new line after
something that cannot end an expression. -/
theorem statement_found_iff {m : SourceModule} (hs : scan source = .ok s) (hm : s.toModule = .ok m) :
    (m.items.map ModuleItem.start).Pairwise (· < ·) ∧ ∀ i t, s.BeginsStatement i t →
      ((m.items.map ModuleItem.start).count t.start = 1 ↔ ¬ s.Overlooked i) ∧
      (s.Overlooked i → (∃ a, s.InClassHead a i) ∨
        t.lineBreak ∧ ∃ p, s.before? i = some p ∧ p.kind ≠ .semicolon ∧ p.endsExpression = false) := by
  have hformed := wellFormed_of_scan hs
  obtain ⟨stop, hstop, hsize⟩ := comes_of_toModule hm
  obtain ⟨rs, hrs⟩ := hstop.readings
  have hordered := hrs.starts_ordered hformed
  refine ⟨hordered, fun i t ht => ⟨?_, ?_⟩⟩
  · have hnodup : (m.items.map ModuleItem.start).Nodup := hordered.imp Nat.ne_of_lt
    constructor
    · intro hcount hover
      have hmem : t.start ∈ m.items.map ModuleItem.start := List.count_pos_iff.1 (by omega)
      obtain ⟨r, hr, rfl⟩ := (hrs.mem_starts_iff hformed ht.token).1 hmem
      obtain ⟨n, hn⟩ := hrs.comes r hr
      exact not_comes_of_overlooked hover hn
    · intro hover
      have hread := (hrs.exists_or_overlooked hformed hstop hsize ht).resolve_right hover
      rw [hnodup.count, if_pos ((hrs.mem_starts_iff hformed ht.token).2 hread)]
  · rintro ⟨a, n, u, _, _, _, ⟨start, hstart, hk, hk'⟩ | hhead⟩
    · have hkey := isModuleKeyword_of_isStatementKeyword ht.keyword
      exact .inr (before_of_expression hformed hstart hk hk' ht.token hkey ht.begins)
    · exact .inl ⟨a, hhead⟩

theorem export_found_after_number : ∃ s m t,
    scan "const f = 1\nexport \x7b f \x7d;".toList = .ok s ∧ s.toModule = .ok m ∧ s.BeginsStatement 4 t ∧
      (m.items.map ModuleItem.start).count t.start = 1 := by
  obtain ⟨s, m, hs, hm, h⟩ := exists_of_acceptsModule "const f = 1\nexport \x7b f \x7d;".toList
    (fun s _ => s.tokens[4]?.any (fun t => s.isStatementKeyword 4 t && t.lineBreak) &&
      (s.before? 4).any (·.endsExpression) && s.tokens.all (·.kind ≠ .keyword .«class»)) (by decide +kernel)
  simp only [Bool.and_eq_true, Option.any_eq_true, Array.all_eq_true_iff_forall_mem, decide_eq_true_eq] at h
  obtain ⟨⟨⟨t, ht, hkey, hbreak⟩, p, hp, hends⟩, hclass⟩ := h
  have hbegins : s.BeginsStatement 4 t := ⟨ht, hkey, .inr (.inr hbreak)⟩
  obtain ⟨hiff, hover⟩ := (statement_found_iff hs hm).2 4 t hbegins
  refine ⟨s, m, t, hs, hm, hbegins, hiff.2 ?_⟩
  intro hoverlooked
  rcases hover hoverlooked with ⟨a, hhead⟩ | ⟨_, p', hp', _, hnot⟩
  · cases hhead with
    | plain _ hc | default _ _ hc =>
      obtain ⟨c, hc, hkind⟩ := isAt_iff.1 hc
      exact hclass c (Array.mem_of_getElem? hc) hkind
  · rw [hp] at hp'
    cases hp'
    rw [hends] at hnot
    cases hnot

theorem export_missed_after_block : ∃ s m t,
    scan "const f = () => \x7b\x7d\nexport \x7b f \x7d;".toList = .ok s ∧ s.toModule = .ok m ∧
      s.BeginsStatement 8 t ∧ (m.items.map ModuleItem.start).count t.start = 0 := by
  obtain ⟨s, m, hs, hm, h⟩ := exists_of_acceptsModule
    "const f = () => \x7b\x7d\nexport \x7b f \x7d;".toList
    (fun s m => s.tokens[8]?.any (fun t => s.isStatementKeyword 8 t && t.lineBreak &&
      (m.items.map ModuleItem.start).count t.start = 0)) (by decide +kernel)
  simp only [Bool.and_eq_true, Option.any_eq_true, decide_eq_true_eq] at h
  obtain ⟨t, ht, ⟨hkey, hbreak⟩, hcount⟩ := h
  exact ⟨s, m, t, hs, hm, ⟨ht, hkey, .inr (.inr hbreak)⟩, hcount⟩

end Stream

end ModuleLowering
