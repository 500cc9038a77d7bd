import ModuleLowering.Proofs.Text.Weave

/-!
The order in which edits are recorded: only that of edits of one span shows in the text, so parts of the
edits that share no span can be recorded one after another in any order.
-/

namespace ModuleLowering.Text

theorem Edit.le_of_span_eq {a b : Edit} (h : a.span = b.span) : a.le b := by
  rw [Edit.le_iff, h]
  exact .inr ⟨rfl, Nat.le_refl _⟩

theorem Edit.span_eq_of_le {a b : Edit} (hab : a.le b) (hba : b.le a) : a.span = b.span := by
  obtain ⟨⟨start, stop⟩, _⟩ := a
  obtain ⟨⟨start', stop'⟩, _⟩ := b
  rw [Edit.le_iff] at hab hba
  simp only [Span.mk.injEq] at hab hba ⊢
  omega

def SameBySpan (es fs : List Edit) : Prop := ∀ span, es.filter (·.span = span) = fs.filter (·.span = span)

namespace SameBySpan

variable {es fs gs : List Edit}

theorem symm (h : SameBySpan es fs) : SameBySpan fs es := fun span => (h span).symm

theorem trans (h : SameBySpan es fs) (h' : SameBySpan fs gs) : SameBySpan es gs := fun span =>
  (h span).trans (h' span)

theorem append_right (h : SameBySpan es fs) (gs : List Edit) : SameBySpan (es ++ gs) (fs ++ gs) := fun span => by
  rw [List.filter_append, List.filter_append, h span]

theorem mem_iff (h : SameBySpan es fs) (e : Edit) : e ∈ es ↔ e ∈ fs := by
  have hmem : e ∈ es.filter (·.span = e.span) ↔ e ∈ fs.filter (·.span = e.span) := by rw [h e.span]
  simpa using hmem

theorem of_cons {e : Edit} (h : SameBySpan (e :: es) (e :: fs)) : SameBySpan es fs := by
  intro span
  have hspan := h span
  rw [List.filter_cons, List.filter_cons] at hspan
  split at hspan
  · exact (List.cons.inj hspan).2
  · exact hspan

end SameBySpan

theorem sameBySpan_mergeSort (es : List Edit) : SameBySpan (es.mergeSort Edit.le) es := by
  intro span
  have hsorted : (es.filter (·.span = span)).Pairwise fun a b => a.le b := by
    refine List.pairwise_of_forall_mem_list fun a ha b hb => Edit.le_of_span_eq ?_
    simp only [List.mem_filter, decide_eq_true_eq] at ha hb
    rw [ha.2, hb.2]
  have hsub := (List.sublist_mergeSort Edit.le_trans Edit.le_total hsorted List.filter_sublist).filter (·.span = span)
  simp only [List.filter_filter, Bool.and_self] at hsub
  exact (hsub.eq_of_length ((es.mergeSort_perm Edit.le).filter _).length_eq.symm).symm

theorem SameBySpan.eq_of_sorted {es fs : List Edit} (h : SameBySpan es fs)
    (hes : es.Pairwise fun a b => a.le b) (hfs : fs.Pairwise fun a b => a.le b) : es = fs := by
  induction es generalizing fs with
  | nil => exact (List.eq_nil_iff_forall_not_mem.2 fun e he => by simpa using (h.mem_iff e).2 he).symm
  | cons e es ih =>
    cases fs with
    | nil => exact absurd ((h.mem_iff e).1 List.mem_cons_self) (by simp)
    | cons f fs =>
      obtain ⟨hfirst, htail⟩ := List.pairwise_cons.1 hes
      obtain ⟨hfirst', htail'⟩ := List.pairwise_cons.1 hfs
      have hef : e.le f := by
        rcases List.mem_cons.1 ((h.mem_iff f).2 List.mem_cons_self) with rfl | hf
        · exact Edit.le_of_span_eq rfl
        · exact hfirst f hf
      have hfe : f.le e := by
        rcases List.mem_cons.1 ((h.mem_iff e).1 List.mem_cons_self) with rfl | he
        · exact Edit.le_of_span_eq rfl
        · exact hfirst' e he
      -- Both come first in their lists among the edits of one span.
      have hspan := Edit.span_eq_of_le hef hfe
      have hhead := h f.span
      rw [List.filter_cons_of_pos (by simpa using hspan), List.filter_cons_of_pos (by simp)] at hhead
      obtain ⟨rfl, _⟩ := List.cons.inj hhead
      rw [ih h.of_cons htail htail']

theorem SameBySpan.applyEdits_eq {es fs : List Edit} (h : SameBySpan es fs) (source : List Char) :
    applyEdits source es = applyEdits source fs := by
  have hsame := ((sameBySpan_mergeSort es).trans h).trans (sameBySpan_mergeSort fs).symm
  rw [applyEdits, applyEdits, hsame.eq_of_sorted (pairwise_le_mergeSort es) (pairwise_le_mergeSort fs)]

def SpansDiffer (es fs : List Edit) : Prop := ∀ e ∈ es, ∀ f ∈ fs, e.span ≠ f.span

theorem SpansDiffer.symm {es fs : List Edit} (h : SpansDiffer es fs) : SpansDiffer fs es :=
  fun f hf e he heq => h e he f hf heq.symm

theorem SpansDiffer.filter_eq_nil {es fs : List Edit} (h : SpansDiffer es fs) (span : Span) :
    es.filter (·.span = span) = [] ∨ fs.filter (·.span = span) = [] := by
  simp only [List.filter_eq_nil_iff, decide_eq_true_eq]
  by_cases hes : ∃ e ∈ es, e.span = span
  · obtain ⟨e, he, rfl⟩ := hes
    exact .inr fun f hf heq => h e he f hf heq.symm
  · exact .inl fun e he heq => hes ⟨e, he, heq⟩

theorem sameBySpan_flatten_of_perm {parts parts' : List (List Edit)} (hperm : parts.Perm parts')
    (h : parts.Pairwise SpansDiffer) : SameBySpan parts.flatten parts'.flatten := by
  intro span
  induction hperm with
  | nil => rfl
  | cons part _ ih =>
    rw [List.flatten_cons, List.flatten_cons, List.filter_append, List.filter_append, ih (List.pairwise_cons.1 h).2]
  | swap a b parts =>
    have hab := (List.pairwise_cons.1 h).1 a List.mem_cons_self
    simp only [List.flatten_cons, List.filter_append]
    rcases hab.filter_eq_nil span with hnil | hnil <;> simp [hnil]
  | trans hperm _ ih ih' => exact (ih h).trans (ih' (hperm.pairwise h fun hab => hab.symm))

theorem filter_flatMap_of_filter_eq_nil {α : Type} {f : α → List Edit} {p : α → Bool} {q : Edit → Bool} {xs : List α}
    (h : ((xs.filter p).flatMap f).filter q = []) :
    (xs.flatMap f).filter q = ((xs.filter (!p ·)).flatMap f).filter q := by
  induction xs with
  | nil => rfl
  | cons x xs ih =>
    rw [List.filter_cons] at h ⊢
    cases hx : p x with
    | true =>
      simp only [hx, if_true, List.flatMap_cons, List.filter_append, List.append_eq_nil_iff] at h
      simp [List.filter_append, h.1, ih h.2]
    | false =>
      simp only [hx, Bool.false_eq_true, if_false] at h
      simp [List.filter_append, ih h]

theorem sameBySpan_flatMap_filter {α : Type} {f : α → List Edit} {p : α → Bool} {xs : List α}
    (h : SpansDiffer ((xs.filter p).flatMap f) ((xs.filter (!p ·)).flatMap f)) :
    SameBySpan (xs.flatMap f) ((xs.filter p).flatMap f ++ (xs.filter (!p ·)).flatMap f) := by
  intro span
  rw [List.filter_append]
  rcases h.filter_eq_nil span with hnil | hnil
  · rw [hnil, List.nil_append, filter_flatMap_of_filter_eq_nil hnil]
  · have hrest : ((xs.filter fun x => !p x).flatMap f).filter (·.span = span) = [] := hnil
    rw [hnil, List.append_nil, filter_flatMap_of_filter_eq_nil hrest]
    simp only [Bool.not_not]

end ModuleLowering.Text
