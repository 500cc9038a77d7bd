import ModuleLowering.Proofs.Lowering.Failures

namespace ModuleLowering

open Text

namespace Context

def accessOf? (x : Context) (t : Token) : Option Access := (x.bindings.origin? t.text).bind x.requirements.access

structure IsTarget (x : Context) (spans : List Span) (t : Token) : Prop where
  name : t.kind = .identifier
  value : t.role.any (·.isValue)
  access : (x.accessOf? t).isSome
  outside : ∀ c ∈ spans, ¬ c.Covers t.start

instance (x : Context) (spans : List Span) (t : Token) : Decidable (x.IsTarget spans t) :=
  decidable_of_iff
    (((x.accessOf? t).isSome ∧ ∀ c ∈ spans, ¬ c.Covers t.start) ∧ t.kind = .identifier ∧ t.role.any (·.isValue))
    ⟨fun ⟨⟨haccess, hout⟩, hname, hvalue⟩ => ⟨hname, hvalue, haccess, hout⟩,
      fun h => ⟨⟨h.access, h.outside⟩, h.name, h.value⟩⟩

def targets (x : Context) (spans : List Span) : List (Token × Nat) :=
  x.stream.tokens.toList.zipIdx.filter fun n => x.IsTarget spans n.1

def IsStringTag (x : Context) (t : Token) : Prop :=
  t.role = some .jsxTag ∧ ∃ specifier raw value,
    x.bindings.origin? t.text = some ⟨specifier, .named (.literal raw value)⟩

def rewriteTo (x : Context) (n : Token × Nat) (access : Access) : Edit :=
  ⟨n.1.span, (x.stream.referenceForm n.2 n.1).render n.1.text access⟩

variable {x : Context} {spans : List Span}

theorem targets_eq (hs : x.stream.WellFormed x.source) (hspans : spans.Pairwise fun a b => a.start ≤ b.start) :
    x.targets spans = (outsideSpans spans x.stream.valueNames).filter fun n => (x.accessOf? n.1).isSome := by
  rw [outsideSpans_eq_filter hspans (Stream.valueNames_starts hs), Stream.valueNames, List.filter_filter,
    List.filter_filter]
  refine List.filter_congr fun n _ => Bool.eq_iff_iff.2 ?_
  simp only [decide_eq_true_eq, Bool.and_eq_true]
  exact ⟨fun h => ⟨⟨h.access, h.outside⟩, h.name, h.value⟩,
    fun ⟨⟨haccess, hout⟩, hname, hvalue⟩ => ⟨hname, hvalue, haccess, hout⟩⟩

theorem eq_of_referenceEdits {n : Token × Nat} {es : List Edit} (h : x.referenceEdits n.2 n.1 = .ok es) :
    es = ((x.accessOf? n.1).map (x.rewriteTo n)).toList := by
  unfold referenceEdits at h
  unfold accessOf?
  split at h
  · rename_i ho
    cases h
    rw [ho]
    rfl
  · rename_i o ho
    rw [ho, Option.bind_some]
    split at h
    · rename_i haccess
      cases h
      rw [haccess]
      rfl
    · rename_i access haccess
      rw [haccess]
      apply of_ite_eq_ok h (fun _ h => by cases h)
      intro _ h
      cases h
      rfl

theorem referenceEdits_fails_iff {n : Token × Nat} {d : Diagnostic} :
    x.referenceEdits n.2 n.1 = .error d ↔
      (x.accessOf? n.1).isSome ∧ x.IsStringTag n.1 ∧ d = ⟨.unsupported .stringNamedTag, n.1.start⟩ := by
  rw [referenceEdits_error_iff]
  constructor
  · rintro ⟨rfl, hrole, ⟨specifier, _⟩, a, raw, value, ho, ha, rfl⟩
    refine ⟨?_, ⟨hrole, specifier, raw, value, ho⟩, rfl⟩
    rw [accessOf?, ho, Option.bind_some, ha]
    rfl
  · rintro ⟨haccess, ⟨hrole, specifier, raw, value, ho⟩, rfl⟩
    rw [accessOf?, ho, Option.bind_some] at haccess
    obtain ⟨a, ha⟩ := Option.isSome_iff_exists.1 haccess
    exact ⟨rfl, hrole, _, a, raw, value, ho, ha, rfl⟩

theorem exists_referenceEdits_iff {n : Token × Nat} :
    (∃ es, x.referenceEdits n.2 n.1 = .ok es) ↔ ((x.accessOf? n.1).isSome → ¬ x.IsStringTag n.1) := by
  constructor
  · rintro ⟨es, h⟩ haccess htag
    rw [referenceEdits_fails_iff.2 ⟨haccess, htag, rfl⟩] at h
    cases h
  · intro h
    cases hes : x.referenceEdits n.2 n.1 with
    | ok es => exact ⟨es, rfl⟩
    | error d =>
      obtain ⟨haccess, htag, _⟩ := referenceEdits_fails_iff.1 hes
      exact absurd htag (h haccess)

theorem forall₂_of_collect {names : List (Token × Nat)} {es : List Edit}
    (h : (Progress.collect (names.map fun n => x.referenceEdits n.2 n.1)).toExcept = .ok es) :
    List.Forall₂ (fun n e => ∃ access, x.accessOf? n.1 = some access ∧ e = x.rewriteTo n access)
      (names.filter fun n => (x.accessOf? n.1).isSome) es := by
  induction names generalizing es with
  | nil =>
    cases h
    exact .nil
  | cons n names ih =>
    obtain ⟨first, rest, hfirst, hrest, rfl⟩ := Progress.cons_of_collect h
    have hes := eq_of_referenceEdits hfirst
    cases haccess : x.accessOf? n.1 with
    | none =>
      rw [haccess] at hes
      rw [hes, List.filter_cons_of_neg (by simp [haccess])]
      exact ih hrest
    | some access =>
      rw [haccess] at hes
      rw [hes, List.filter_cons_of_pos (by simp [haccess])]
      exact .cons ⟨access, haccess, rfl⟩ (ih hrest)

/-- For spans sorted by start, rewriting the references makes one edit for each target, in their order, and fails
at the first target that is a JSX tag imported by a string. -/
theorem targets_rewritten (hs : scan x.source = .ok x.stream)
    (hspans : spans.Pairwise fun a b => a.start ≤ b.start) :
    (∀ es, (x.referencesEdits spans).toExcept = .ok es →
      List.Forall₂ (fun n e => ∃ access, x.accessOf? n.1 = some access ∧ e = x.rewriteTo n access)
        (x.targets spans) es ∧ es.length = (x.targets spans).length) ∧
    ∀ d, (x.referencesEdits spans).toExcept = .error d ↔
      ∃ first t i later, x.targets spans = first ++ (t, i) :: later ∧ (∀ n ∈ first, ¬ x.IsStringTag n.1) ∧
        x.IsStringTag t ∧ d = ⟨.unsupported .stringNamedTag, t.start⟩ := by
  rw [targets_eq (Stream.wellFormed_of_scan hs) hspans]
  refine ⟨fun es hes => ?_, fun d => Progress.collect_map_eq_error_iff.trans ⟨?_, ?_⟩⟩
  · have hforall := forall₂_of_collect hes
    exact ⟨hforall, hforall.length_eq.symm⟩
  · rintro ⟨first, ⟨t, i⟩, later, hnames, hfirst, hn⟩
    obtain ⟨haccess, htag, rfl⟩ := (referenceEdits_fails_iff (n := (t, i))).1 hn
    refine ⟨first.filter fun n => (x.accessOf? n.1).isSome, t, i,
      later.filter fun n => (x.accessOf? n.1).isSome, ?_, fun y hy => ?_, htag, rfl⟩
    · rw [hnames, List.filter_append, List.filter_cons, if_pos haccess]
    · obtain ⟨hy, hyaccess⟩ := List.mem_filter.1 hy
      exact exists_referenceEdits_iff.1 (hfirst y hy) hyaccess
  · -- The names before the failing target are targets before it, or they are not imported with an access.
    rintro ⟨first, t, i, later, htargets, hfirst, htag, rfl⟩
    obtain ⟨before, rest, hnames, rfl, hrest⟩ := List.filter_eq_append_iff.1 htargets
    obtain ⟨between, after, rfl, hbetween, haccess, rfl⟩ := List.filter_eq_cons_iff.1 hrest
    refine ⟨before ++ between, (t, i), after, by rw [hnames, List.append_assoc], fun y hy => ?_,
      (referenceEdits_fails_iff (n := (t, i))).2 ⟨haccess, htag, rfl⟩⟩
    refine exists_referenceEdits_iff.2 fun hyaccess => ?_
    rcases List.mem_append.1 hy with hy | hy
    · exact hfirst y (List.mem_filter.2 ⟨hy, hyaccess⟩)
    · exact absurd hyaccess (hbetween y hy)

theorem targets_rewritten_shorthand :
    let source := "import \x7b a, b \x7d from 'm';\na(\x7b b \x7d, c.a);\nexport \x7b a \x7d;".toList
    ∃ s m es, scan source = .ok s ∧ s.toModule = .ok m ∧
      (m.items.filterMap consumedSpan).Pairwise (fun a b => a.start ≤ b.start) ∧
      ((ofModule source s m true).referencesEdits (m.items.filterMap consumedSpan)).toExcept = .ok es ∧
      es.map (·.text) = ["(0, _m.a)", "b: (0, _m.b)"] ∧
      ((ofModule source s m true).targets (m.items.filterMap consumedSpan)).length = 2 := by
  intro source
  obtain ⟨s, m, hs, hm, h⟩ := exists_of_acceptsModule source
    (fun s m => decide ((m.items.filterMap consumedSpan).Pairwise fun a b : Span => a.start ≤ b.start) &&
      ((ofModule source s m true).referencesEdits (m.items.filterMap consumedSpan)).toExcept.toOption.any
        fun es : List Edit => decide (es.map (·.text) = ["(0, _m.a)", "b: (0, _m.b)"])) (by decide +kernel)
  rw [Bool.and_eq_true, decide_eq_true_eq] at h
  obtain ⟨hsorted, h⟩ := h
  obtain ⟨es, hes, h⟩ := exists_ok_of_test _ h
  have htexts := of_decide_eq_true h
  obtain ⟨_, hlength⟩ := (targets_rewritten (x := ofModule source s m true) hs hsorted).1 es hes
  refine ⟨s, m, es, hs, hm, hsorted, hes, htexts, ?_⟩
  rw [← hlength, ← List.length_map (·.text), htexts]
  rfl

end Context

end ModuleLowering
