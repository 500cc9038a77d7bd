import ModuleLowering.Proofs.Text.Order

namespace ModuleLowering.Text

structure Arranged (es placed : List Edit) : Prop where
  perm : placed.Perm es
  inOrder : placed.Pairwise fun a b => a.span.stop ≤ b.span.start
  recorded : ∀ offset, placed.filter (·.span = .point offset) = es.filter (·.span = .point offset)
  insertedBefore : ∀ i ∈ es, ∀ r ∈ es, i.span = .point r.span.start → r.span.start < r.span.stop →
    [i, r].Sublist placed
  insertedAfter : ∀ i ∈ es, ∀ r ∈ es, i.span = .point r.span.stop → r.span.start < r.span.stop →
    [r, i].Sublist placed

theorem pair_sublist_of_pairwise {α : Type} {R : α → α → Prop} {xs : List α} (h : xs.Pairwise R) {a b : α}
    (ha : a ∈ xs) (hb : b ∈ xs) (hne : a ≠ b) (hnot : ¬ R b a) : [a, b].Sublist xs := by
  obtain ⟨before, after, rfl⟩ := List.append_of_mem ha
  rcases List.mem_append.1 hb with hb | hb
  · exact absurd ((List.pairwise_append.1 h).2.2 b hb a List.mem_cons_self) hnot
  · have hafter : b ∈ after := (List.mem_cons.1 hb).resolve_left hne.symm
    exact ((List.singleton_sublist.2 hafter).cons_cons a).trans (List.sublist_append_right before _)

theorem filter_span_eq_nil_or_singleton {es : List Edit} (h : es.Pairwise fun a b => a.span.Apart b.span) {span : Span}
    (hspan : span.start < span.stop) : es.filter (·.span = span) = [] ∨ ∃ e, es.filter (·.span = span) = [e] := by
  have hsame : ∀ e ∈ es.filter (·.span = span), e.span = span := fun e he => by simpa using (List.mem_filter.1 he).2
  have hapart := h.filter (·.span = span)
  generalize es.filter (·.span = span) = same at hsame hapart
  match same with
  | [] => exact .inl rfl
  | [e] => exact .inr ⟨e, rfl⟩
  | e :: f :: _ =>
    have hef := (List.pairwise_cons.1 hapart).1 f List.mem_cons_self
    rw [Span.Apart, hsame e (by simp), hsame f (by simp)] at hef
    omega

variable {source : List Char} {es : List Edit}

theorem sameBySpan_of_perm {placed : List Edit} (hin : ∀ e ∈ es, e.span.In source)
    (hapart : es.Pairwise fun a b => a.span.Apart b.span) (hperm : placed.Perm es)
    (hrecorded : ∀ offset, placed.filter (·.span = .point offset) = es.filter (·.span = .point offset)) :
    SameBySpan placed es := by
  intro span
  rcases Nat.lt_trichotomy span.start span.stop with hlt | heq | hgt
  · have hfilter := hperm.filter (·.span = span)
    rcases filter_span_eq_nil_or_singleton hapart hlt with hnil | ⟨e, he⟩
    · rw [hnil] at hfilter ⊢
      exact hfilter.eq_nil
    · rw [he] at hfilter ⊢
      exact List.perm_singleton.1 hfilter
  · have hpoint : span = .point span.start := by rw [Span.point, Span.mk.injEq]; exact ⟨rfl, heq.symm⟩
    rw [hpoint]
    exact hrecorded span.start
  · have hnone (fs : List Edit) (hfs : ∀ e ∈ fs, e.span.In source) : fs.filter (·.span = span) = [] := by
      refine List.filter_eq_nil_iff.2 fun e he heq => ?_
      have hle := (hfs e he).le
      rw [show e.span = span by simpa using heq] at hle
      omega
    rw [hnone es hin, hnone placed fun e he => hin e (hperm.mem_iff.1 he)]

theorem Arranged.sorted {placed : List Edit} (hin : ∀ e ∈ es, e.span.In source) (h : Arranged es placed) :
    placed.Pairwise fun a b => a.le b := by
  refine h.inOrder.imp_of_mem fun {a b} ha hb hab => ?_
  have hale := (hin a (h.perm.mem_iff.1 ha)).le
  have hble := (hin b (h.perm.mem_iff.1 hb)).le
  rw [Edit.le_iff]
  omega

theorem arranged_mergeSort (hin : ∀ e ∈ es, e.span.In source)
    (hapart : es.Pairwise fun a b => a.span.Apart b.span) : Arranged es (es.mergeSort Edit.le) := by
  have hperm := es.mergeSort_perm Edit.le
  have horder := sequential_of_apart hin hapart
  have hfirst {a b : Edit} (ha : a ∈ es) (hb : b ∈ es) (hne : a.span ≠ b.span) (hlt : a.span.start < b.span.stop) :
      [a, b].Sublist (es.mergeSort Edit.le) :=
    pair_sublist_of_pairwise horder (hperm.mem_iff.2 ha) (hperm.mem_iff.2 hb) (fun heq => hne (heq ▸ rfl)) (by omega)
  refine ⟨hperm, horder, fun offset => sameBySpan_mergeSort es _, ?_, ?_⟩
  · intro i hi r hr hspan hlt
    refine hfirst hi hr ?_ (by rw [hspan]; exact hlt)
    rw [hspan, Span.point]
    intro heq
    rw [← heq] at hlt
    exact absurd hlt (Nat.lt_irrefl _)
  · intro i hi r hr hspan hlt
    refine hfirst hr hi ?_ (by rw [hspan]; exact hlt)
    rw [hspan, Span.point]
    intro heq
    rw [heq] at hlt
    exact absurd hlt (Nat.lt_irrefl _)

/-- Edits that lie in the text and are apart have one arrangement. Carrying them out copies what no edit covers and
writes the texts of the edits in that arrangement, and only the order of edits of one span shows in the result. -/
theorem edits_arranged (hin : ∀ e ∈ es, e.span.In source) (hapart : es.Pairwise fun a b => a.span.Apart b.span) :
    (∃ placed, Arranged es placed ∧ (∀ other, Arranged es other → other = placed) ∧
      Woven 0 source placed (applyEdits source es)) ∧
    ∀ fs, SameBySpan es fs → applyEdits source fs = applyEdits source es := by
  have harranged := arranged_mergeSort hin hapart
  refine ⟨⟨es.mergeSort Edit.le, harranged, fun other hother => ?_, woven_applyEdits hin hapart⟩, fun fs hfs => ?_⟩
  · have hsame := sameBySpan_of_perm hin hapart hother.perm hother.recorded
    exact (hsame.trans (sameBySpan_mergeSort es).symm).eq_of_sorted (hother.sorted hin) (harranged.sorted hin)
  · exact (hfs.applyEdits_eq source).symm

theorem edits_arranged_touching :
    let source := "aéb".toList
    let es : List Edit := [⟨⟨1, 3⟩, "z"⟩, ⟨.point 1, "x"⟩, ⟨⟨0, 1⟩, ""⟩, ⟨.point 1, "y"⟩]
    (∀ e ∈ es, e.span.In source) ∧ (es.Pairwise fun a b => a.span.Apart b.span) ∧
      ∃ placed, Arranged es placed ∧ Woven 0 source placed "xyzb".toList := by
  intro source es
  have hin : ∀ e ∈ es, e.span.In source := by
    intro e he
    simp only [es, List.mem_cons, List.not_mem_nil, or_false] at he
    rcases he with rfl | rfl | rfl | rfl <;> exact ⟨by decide, by decide, by decide⟩
  have hapart : es.Pairwise fun a b => a.span.Apart b.span := by decide
  obtain ⟨placed, harranged, _, hwoven⟩ := (edits_arranged hin hapart).1
  have hsorted : es.mergeSort Edit.le = [⟨⟨0, 1⟩, ""⟩, ⟨.point 1, "x"⟩, ⟨.point 1, "y"⟩, ⟨⟨1, 3⟩, "z"⟩] := by
    simp [es, List.mergeSort, Edit.le, Span.point]
  have hout : applyEdits source es = "xyzb".toList := by
    rw [applyEdits, hsorted]
    decide +kernel
  exact ⟨hin, hapart, placed, harranged, hout ▸ hwoven⟩

end ModuleLowering.Text
