import ModuleLowering.Proofs.Text.Lines

namespace ModuleLowering.Text

theorem exists_split_of_pairwise {α : Type} {P : α → Prop} {xs : List α} (h : xs.Pairwise fun a b => P b → P a) :
    ∃ first last, xs = first ++ last ∧ (∀ x ∈ first, P x) ∧ ∀ x ∈ last, ¬ P x := by
  induction xs with
  | nil => exact ⟨[], [], rfl, by simp, by simp⟩
  | cons x xs ih =>
    obtain ⟨hx, hxs⟩ := List.pairwise_cons.1 h
    by_cases hP : P x
    · obtain ⟨first, last, rfl, hfirst, hlast⟩ := ih hxs
      exact ⟨x :: first, last, rfl, List.forall_mem_cons.2 ⟨hP, hfirst⟩, hlast⟩
    · exact ⟨[], x :: xs, rfl, by simp, List.forall_mem_cons.2 ⟨hP, fun y hy hPy => hP (hx y hy hPy)⟩⟩

def Span.Covers (s : Span) (offset : Nat) : Prop := s.start ≤ offset ∧ offset < s.stop

instance (s : Span) (offset : Nat) : Decidable (s.Covers offset) := inferInstanceAs (Decidable (_ ∧ _))

theorem Span.not_covers_iff {s : Span} {offset : Nat} : ¬ s.Covers offset ↔ s.stop ≤ offset ∨ offset < s.start := by
  unfold Covers
  omega

theorem exists_of_append_cons {xs ys before after : List Char} {c : Char} (h : xs ++ ys = before ++ c :: after)
    (hlt : byteLength before < byteLength xs) : ∃ rest, xs = before ++ c :: rest := by
  obtain ⟨middle, rfl, htail⟩ := Woven.exists_of_append h.symm (Nat.le_of_lt hlt)
  cases middle with
  | nil =>
    rw [List.append_nil] at hlt
    omega
  | cons d middle =>
    cases htail
    exact ⟨middle, rfl⟩

namespace Woven

variable {pos : Nat} {rest out : List Char} {es : List Edit}

theorem cut {before after : List Char} {first last : List Edit}
    (h : Woven pos (before ++ after) (first ++ last) out)
    (hfirst : ∀ e ∈ first, e.span.stop ≤ pos + byteLength before)
    (hlast : ∀ e ∈ last, pos + byteLength before ≤ e.span.start) :
    ∃ before' after', out = before' ++ after' ∧ Woven pos before first before' ∧
      Woven (pos + byteLength before) after last after' := by
  induction first generalizing pos before out with
  | nil =>
    generalize hrest : before ++ after = rest at h
    cases h with
    | done => exact ⟨before, after, hrest.symm, .done, .done⟩
    | @edit _ e es kept removed rest out hstart hstop h =>
      have hle := hlast e List.mem_cons_self
      rw [List.append_assoc] at hrest
      obtain ⟨middle, rfl, rfl⟩ := exists_of_append hrest (by omega)
      refine ⟨before, middle ++ e.text.toList ++ out, by simp, .done, ?_⟩
      rw [← List.append_assoc]
      refine .edit ?_ hstop h
      rw [byteLength_append] at hstart
      omega
  | cons e first ih =>
    generalize hrest : before ++ after = rest at h
    cases h with
    | @edit _ _ _ kept removed rest out hstart hstop h =>
      have hle := hfirst e List.mem_cons_self
      obtain ⟨middle, rfl, rfl⟩ := exists_of_append hrest.symm (by rw [byteLength_append]; omega)
      have hoffset : pos + byteLength (kept ++ removed ++ middle) = e.span.stop + byteLength middle := by
        rw [byteLength_append, byteLength_append]
        omega
      rw [hoffset] at hfirst hlast ⊢
      obtain ⟨before', after', rfl, hbefore, hafter⟩ :=
        ih h (fun f hf => hfirst f (List.mem_cons_of_mem e hf)) hlast
      exact ⟨kept ++ e.text.toList ++ before', after', by simp, .edit hstart hstop hbefore, hafter⟩

theorem le_start (h : Woven pos rest es out) {e : Edit} (he : e ∈ es) : pos ≤ e.span.start := by
  induction h with
  | done => cases he
  | edit hstart hstop _ ih =>
    rcases List.mem_cons.1 he with rfl | he
    · omega
    · have := ih he
      omega

theorem start_le_stop (h : Woven pos rest es out) {e : Edit} (he : e ∈ es) : e.span.start ≤ e.span.stop := by
  induction h with
  | done => cases he
  | edit _ hstop _ ih =>
    rcases List.mem_cons.1 he with rfl | he
    · omega
    · exact ih he

theorem eq_of_whole {e : Edit} (h : Woven pos rest [e] out) (hspan : e.span = ⟨pos, pos + byteLength rest⟩) :
    out = e.text.toList := by
  cases h with
  | @edit _ _ _ kept removed rest out hstart hstop h =>
    cases h
    rw [hspan] at hstart hstop
    rw [byteLength_append, byteLength_append] at hstop
    dsimp only at hstart hstop
    obtain rfl : kept = [] := eq_nil_of_byteLength (by omega)
    obtain rfl : rest = [] := eq_nil_of_byteLength (by omega)
    simp

theorem endsIn {lead word : List Char} (h : Woven pos (lead ++ word) es out) (hword : word ≠ [])
    (hseq : es.Pairwise fun e f => e.span.stop ≤ f.span.start)
    (hes : ∀ e ∈ es, e.span.stop ≤ pos + byteLength lead ∨
      e.span = ⟨pos + byteLength lead, pos + byteLength lead + byteLength word⟩) :
    ∃ before last, out = before ++ last ∧ (last = word ∨
      ∃ e ∈ es, e.span = ⟨pos + byteLength lead, pos + byteLength lead + byteLength word⟩ ∧
        last = e.text.toList) := by
  have hpos : 0 < byteLength word := Nat.pos_of_ne_zero fun h => hword (eq_nil_of_byteLength h)
  obtain ⟨first, later, rfl, hfirst, hlater⟩ :=
    exists_split_of_pairwise (P := fun e => e.span.stop ≤ pos + byteLength lead)
      (hseq.imp_of_mem fun _ hf hef hle => hef.trans ((h.start_le_stop hf).trans hle))
  have hwhole (e : Edit) (he : e ∈ later) := (hes e (List.mem_append_right first he)).resolve_left (hlater e he)
  obtain ⟨before, last, rfl, _, hlast⟩ := h.cut hfirst fun e he => by
    rw [hwhole e he]
  refine ⟨before, last, rfl, ?_⟩
  cases later with
  | nil =>
    cases hlast
    exact .inl rfl
  | cons e es =>
    have hspan := hwhole e List.mem_cons_self
    cases es with
    | nil => exact .inr ⟨e, List.mem_append_right first List.mem_cons_self, hspan, hlast.eq_of_whole hspan⟩
    | cons f es =>
      -- Two edits of the same word would overlap.
      have hnext := hwhole f (List.mem_cons_of_mem e List.mem_cons_self)
      have hef := (List.pairwise_cons.1 (List.pairwise_append.1 hseq).2.1).1 f List.mem_cons_self
      rw [hspan, hnext] at hef
      dsimp only at hef
      omega

theorem mem_iff (h : Woven pos rest es out) {c : Char} :
    c ∈ out ↔ (∃ e ∈ es, c ∈ e.text.toList) ∨
      ∃ before after, rest = before ++ c :: after ∧ ∀ e ∈ es, ¬ e.span.Covers (pos + byteLength before) := by
  induction h with
  | done => simp [List.mem_iff_append]
  | @edit pos e es kept removed rest out hstart hstop h ih =>
    have hpos := c.utf8Size_pos
    simp only [List.mem_append, ih, List.exists_mem_cons_iff, List.forall_mem_cons]
    constructor
    · rintro ((hkept | htext) | (hlater | ⟨before, after, rfl, hout⟩))
      · obtain ⟨before, after, rfl⟩ := List.mem_iff_append.1 hkept
        rw [byteLength_append, byteLength_cons] at hstart
        refine .inr ⟨before, after ++ removed ++ rest, by simp, ?_, fun f hf hcovers => ?_⟩
        · intro hcovers
          have := hcovers.1
          omega
        · have := h.le_start hf
          have := hcovers.1
          omega
      · exact .inl (.inl htext)
      · exact .inl (.inr hlater)
      · have hoffset : pos + byteLength (kept ++ removed ++ before) = e.span.stop + byteLength before := by
          rw [byteLength_append, byteLength_append]
          omega
        refine .inr ⟨kept ++ removed ++ before, after, by simp, ?_⟩
        rw [hoffset]
        refine ⟨fun hcovers => ?_, hout⟩
        have := hcovers.2
        omega
    · rintro ((htext | hlater) | ⟨before, after, hrest, hcovers, hout⟩)
      · exact .inl (.inr htext)
      · exact .inr (.inl hlater)
      · -- The character does not stand under the span, and so before or after it.
        by_cases hbefore : pos + byteLength before < e.span.start
        · rw [List.append_assoc] at hrest
          obtain ⟨tail, rfl⟩ := exists_of_append_cons hrest (by omega)
          exact .inl (.inl (by simp))
        · have hstop : e.span.stop ≤ pos + byteLength before := by
            apply Nat.le_of_not_lt
            exact fun hlt => hcovers ⟨by omega, hlt⟩
          obtain ⟨middle, rfl, rfl⟩ := exists_of_append hrest (by rw [byteLength_append]; omega)
          refine .inr (.inr ⟨middle, after, rfl, fun f hf => ?_⟩)
          have hoffset : pos + byteLength (kept ++ removed ++ middle) = e.span.stop + byteLength middle := by
            rw [byteLength_append, byteLength_append]
            omega
          rw [← hoffset]
          exact hout f hf

end Woven

/-- `out` has `text` in the place of what the source has between the offsets `a` and `b`. What is inserted at one
of these offsets belongs to it. -/
inductive Becomes (source : List Char) (es : List Edit) (out : List Char) (a b : Nat) : List Char → Prop
  | intro {before between after before' text after' : List Char} {first middle last : List Edit}
      (hes : es = first ++ middle ++ last) (hsource : source = before ++ between ++ after)
      (hout : out = before' ++ text ++ after') (hstart : byteLength before = a) (hstop : a + byteLength between = b)
      (hfirst : Woven 0 before first before') (hmiddle : Woven a between middle text)
      (hlast : Woven b after last after') (hearlier : ∀ e ∈ first, e.span.start < a)
      (hwithin : ∀ e ∈ middle, e.span.Within ⟨a, b⟩) (hlater : ∀ e ∈ last, b < e.span.stop) :
      Becomes source es out a b text

theorem Becomes.mem_iff {source out text : List Char} {es : List Edit} {a b : Nat}
    (h : Becomes source es out a b text) {c : Char} :
    c ∈ text ↔ (∃ e ∈ es, e.span.Within ⟨a, b⟩ ∧ c ∈ e.text.toList) ∨
      ∃ before after, source = before ++ c :: after ∧ (Span.mk a b).Covers (byteLength before) ∧
        ∀ e ∈ es, e.span.Within ⟨a, b⟩ → ¬ e.span.Covers (byteLength before) := by
  cases h with
  | @intro lead between trail _ _ _ first middle last hes hsource _ hstart hstop _ hmiddle _ hearlier hwithin hlater =>
    have hpos := c.utf8Size_pos
    have hmem (e : Edit) : e ∈ es ∧ e.span.Within ⟨a, b⟩ ↔ e ∈ middle := by
      rw [hes, List.mem_append, List.mem_append]
      constructor
      · rintro ⟨(he | he) | he, hstart, hstop⟩
        · exact absurd (hearlier e he) (Nat.not_lt_of_le hstart)
        · exact he
        · exact absurd (hlater e he) (Nat.not_lt_of_le hstop)
      · exact fun he => ⟨.inl (.inr he), hwithin e he⟩
    simp only [← and_assoc, ← and_imp, hmem, hmiddle.mem_iff]
    refine or_congr_right ⟨?_, ?_⟩
    · rintro ⟨before, after, rfl, hout⟩
      rw [byteLength_append, byteLength_cons] at hstop
      refine ⟨lead ++ before, after ++ trail, ⟨by simp [hsource], ?_⟩, ?_⟩
      · rw [byteLength_append]
        constructor <;> dsimp only <;> omega
      · rwa [byteLength_append, hstart]
    · rintro ⟨before, after, ⟨hsplit, hle, hlt⟩, hout⟩
      rw [hsource, List.append_assoc] at hsplit
      dsimp only at hle hlt
      obtain ⟨inner, rfl, htail⟩ := Woven.exists_of_append hsplit (by omega)
      rw [byteLength_append] at hlt hout
      obtain ⟨rest, rfl⟩ := exists_of_append_cons htail (by omega)
      exact ⟨inner, rest, rfl, by rwa [← hstart]⟩

theorem exists_between {source : List Char} {a b : Nat} (ha : IsBoundary source a) (hb : IsBoundary source b)
    (hle : a ≤ b) :
    ∃ before between after, source = before ++ between ++ after ∧ byteLength before = a ∧
      a + byteLength between = b := by
  obtain ⟨before, rest, rfl, hbefore⟩ := @split_of_isBoundary [] source a ha (Nat.zero_le a)
  rw [byteLength_nil, Nat.zero_add] at hbefore
  obtain ⟨between, after, rfl, hbetween⟩ := split_of_isBoundary hb (hbefore ▸ hle)
  exact ⟨before, between, after, (List.append_assoc _ _ _).symm, hbefore, hbefore ▸ hbetween⟩

theorem Woven.becomes {source out before between after : List Char} {es : List Edit} {a b : Nat}
    (h : Woven 0 source es out) (hsource : source = before ++ between ++ after) (hstart : byteLength before = a)
    (hstop : a + byteLength between = b) (hle : ∀ e ∈ es, e.span.start ≤ e.span.stop)
    (hseq : es.Pairwise fun e f => e.span.stop ≤ f.span.start)
    (ha : ∀ e ∈ es, e.span.start < a → e.span.stop ≤ a) (hb : ∀ e ∈ es, b < e.span.stop → b ≤ e.span.start) :
    ∃ text, Becomes source es out a b text := by
  subst hstart hstop
  obtain ⟨first, later, rfl, hearlier, hlater⟩ :=
    exists_split_of_pairwise (P := fun e => e.span.start < byteLength before)
      (hseq.imp_of_mem fun {e f} he _ hef hf => by
        have := hle e he
        omega)
  obtain ⟨middle, last, rfl, hmiddle, hlast⟩ :=
    exists_split_of_pairwise (P := fun e => e.span.stop ≤ byteLength before + byteLength between)
      ((List.pairwise_append.1 hseq).2.1.imp_of_mem fun {_ f} _ hf hef hfb => by
        have := hle f (List.mem_append_right first hf)
        omega)
  rw [hsource, List.append_assoc] at h
  obtain ⟨before', out', rfl, hfirst, hrest⟩ := h.cut
    (fun e he => by simpa using ha e (List.mem_append_left _ he) (hearlier e he))
    fun e he => by simpa using hlater e he
  rw [Nat.zero_add] at hrest
  obtain ⟨text, after', rfl, hbetween, hafter⟩ := hrest.cut hmiddle fun e he =>
    hb e (List.mem_append_right first (List.mem_append_right middle he)) (Nat.lt_of_not_le (hlast e he))
  refine ⟨text, .intro (List.append_assoc first middle last).symm hsource (by simp) rfl rfl hfirst hbetween hafter
    hearlier (fun e he => ⟨?_, hmiddle e he⟩) fun e he => Nat.lt_of_not_le (hlast e he)⟩
  exact Nat.le_of_not_lt (hlater e (List.mem_append_left last he))

/-- The first that is inserted at an offset is `text`: before it stands what the source up to there has become, and
after it what the rest of the source becomes. -/
inductive Inserts (source : List Char) (es : List Edit) (out : List Char) (offset : Nat)
    (before text after : List Char) : Prop
  | intro {lead trail : List Char} {first last : List Edit} {e : Edit} (hes : es = first ++ e :: last)
      (hsource : source = lead ++ trail) (hout : out = before ++ text ++ after) (hoffset : byteLength lead = offset)
      (hspan : e.span = .point offset) (htext : e.text.toList = text) (hfirst : Woven 0 lead first before)
      (hlast : Woven offset trail last after) (hearlier : ∀ f ∈ first, f.span.start < offset) :
      Inserts source es out offset before text after

theorem Woven.inserts {lead trail out : List Char} {es : List Edit} (h : Woven 0 (lead ++ trail) es out)
    (hseq : es.Pairwise fun e f => e.span.stop ≤ f.span.start) {text : String} {e : Edit} (he : e ∈ es)
    (hspan : e.span = .point (byteLength lead))
    (htext : ∀ f ∈ es, f.span = .point (byteLength lead) → f.text = text) :
    ∃ before after, Inserts (lead ++ trail) es out (byteLength lead) before text.toList after ∧
      ∃ first, first.Sublist es ∧ (∀ f ∈ first, f.span.start < byteLength lead) ∧ Woven 0 lead first before := by
  obtain ⟨first, later, rfl, hfirst, hlater⟩ :=
    exists_split_of_pairwise (P := fun e => e.span.start < byteLength lead)
      (hseq.imp_of_mem fun ha _ hab hb => Nat.lt_of_le_of_lt ((h.start_le_stop ha).trans hab) hb)
  have hmem : e ∈ later := by
    refine (List.mem_append.1 he).resolve_left fun hbefore => ?_
    have hlt := hfirst e hbefore
    rw [hspan] at hlt
    exact Nat.lt_irrefl _ hlt
  cases later with
  | nil => cases hmem
  | cons f last =>
    obtain ⟨_, hlast, hbetween⟩ := List.pairwise_append.1 hseq
    have hf := List.mem_append_right first (List.mem_cons_self (a := f) (l := last))
    have hstart := Nat.le_of_not_lt (hlater f List.mem_cons_self)
    -- What is inserted first is what was asked for, or stands before it and so is also inserted there.
    have hstop : f.span.stop ≤ byteLength lead := by
      rcases List.mem_cons.1 hmem with rfl | hmem
      · rw [hspan]
        exact Nat.le_refl _
      · have hle := (List.pairwise_cons.1 hlast).1 e hmem
        rw [hspan] at hle
        exact hle
    have hpoint : f.span = .point (byteLength lead) := by
      have hle := h.start_le_stop hf
      exact congrArg₂ Span.mk (Nat.le_antisymm (hle.trans hstop) hstart) (Nat.le_antisymm hstop (hstart.trans hle))
    obtain ⟨before, rest, rfl, hbefore, hrest⟩ := h.cut
      (fun a ha => by simpa [hpoint, Span.point] using hbetween a ha f List.mem_cons_self)
      fun a ha => by simpa using Nat.le_of_not_lt (hlater a ha)
    rw [Nat.zero_add] at hrest
    cases hrest with
    | @edit _ _ _ kept removed trail out hkept hremoved hafter =>
      rw [hpoint] at hkept hremoved hafter
      obtain rfl : kept = [] := eq_nil_of_byteLength (Nat.add_left_cancel hkept)
      obtain rfl : removed = [] := eq_nil_of_byteLength (Nat.add_left_cancel hremoved)
      refine ⟨before, out, .intro rfl rfl ?_ rfl hpoint ?_ hbefore hafter hfirst, first,
        List.sublist_append_left first _, hfirst, hbefore⟩
      · rw [htext f hf hpoint, List.nil_append, List.append_assoc]
      · rw [htext f hf hpoint]

end ModuleLowering.Text
