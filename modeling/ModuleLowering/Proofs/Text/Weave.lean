import ModuleLowering.Text.Edit

namespace ModuleLowering.Text

/-- `out` is `rest`, the text from an offset on, with the spans of edits replaced by their texts: what
stands before, between and after them is copied. -/
inductive Woven : Nat → List Char → List Edit → List Char → Prop
  | done {pos : Nat} {rest : List Char} : Woven pos rest [] rest
  | edit {pos : Nat} {e : Edit} {es : List Edit} {kept removed rest out : List Char}
      (hstart : pos + byteLength kept = e.span.start) (hstop : e.span.start + byteLength removed = e.span.stop)
      (h : Woven e.span.stop rest es out) :
      Woven pos (kept ++ removed ++ rest) (e :: es) (kept ++ e.text.toList ++ out)

structure Span.In (source : List Char) (s : Span) : Prop where
  le : s.start ≤ s.stop
  start : IsBoundary source s.start
  stop : IsBoundary source s.stop

def Span.Apart (a b : Span) : Prop := a.stop ≤ b.start ∨ b.stop ≤ a.start

instance (a b : Span) : Decidable (a.Apart b) := inferInstanceAs (Decidable (_ ∨ _))

theorem Span.Apart.symm {a b : Span} (h : a.Apart b) : b.Apart a := Or.symm h

theorem eq_nil_of_byteLength {cs : List Char} (h : byteLength cs = 0) : cs = [] := by
  have := length_le_byteLength cs
  exact List.length_eq_zero_iff.1 (by omega)

theorem split_of_isBoundary {before rest : List Char} {offset : Nat}
    (h : IsBoundary (before ++ rest) offset) (hle : byteLength before ≤ offset) :
    ∃ kept after, rest = kept ++ after ∧ byteLength before + byteLength kept = offset := by
  have hsplit := takeBytes_append_dropBytes offset (before ++ rest)
  have hlength : byteLength (takeBytes offset (before ++ rest)) = offset := h
  generalize takeBytes offset (before ++ rest) = front at hsplit hlength
  generalize dropBytes offset (before ++ rest) = back at hsplit
  rcases List.append_eq_append_iff.1 hsplit with ⟨extra, hbefore, hback⟩ | ⟨kept, hfront, hrest⟩
  · have hnil : extra = [] := by
      apply eq_nil_of_byteLength
      rw [hbefore, byteLength_append] at hle
      omega
    subst hnil
    refine ⟨[], rest, rfl, ?_⟩
    rw [hbefore, List.append_nil, hlength]
    rfl
  · exact ⟨kept, back, hrest, by rw [← byteLength_append, ← hfront, hlength]⟩

theorem woven_splice {source : List Char} {es : List Edit} (hin : ∀ e ∈ es, e.span.In source)
    (hseq : es.Pairwise fun a b => a.span.stop ≤ b.span.start) {before rest : List Char}
    (hsource : source = before ++ rest) (hfirst : ∀ e ∈ es, byteLength before ≤ e.span.start) :
    Woven (byteLength before) rest es (splice (byteLength before) rest es) := by
  induction es generalizing before rest with
  | nil => exact .done
  | cons e es ih =>
    obtain ⟨hle, hstart, hstop⟩ := hin e List.mem_cons_self
    have hpos := hfirst e List.mem_cons_self
    rw [hsource] at hstart hstop
    obtain ⟨kept, after, rfl, hkept⟩ := split_of_isBoundary hstart hpos
    rw [← List.append_assoc, ← byteLength_append] at *
    obtain ⟨removed, tail, rfl, hremoved⟩ := split_of_isBoundary hstop (by omega)
    have hlater := (List.pairwise_cons.1 hseq).1
    have htail := ih (fun x hx => hin x (List.mem_cons_of_mem e hx)) (List.pairwise_cons.1 hseq).2
      (show source = (before ++ kept ++ removed) ++ tail by simpa using hsource)
      (fun x hx => by have := hlater x hx; rw [byteLength_append]; omega)
    rw [byteLength_append, hremoved] at htail
    have hkeptLength : e.span.start - byteLength before = byteLength kept := by
      rw [byteLength_append] at hkept
      omega
    have hremovedLength : e.span.stop - (byteLength before + byteLength kept) = byteLength removed := by
      rw [byteLength_append] at hkept hremoved
      omega
    have hnext : byteLength before + byteLength kept + byteLength removed = e.span.stop := by
      rw [byteLength_append] at hremoved
      omega
    unfold splice
    simp only [hkeptLength, hremovedLength, hnext]
    rw [takeBytes_byteLength_append, dropBytes_byteLength_append, dropBytes_byteLength_append]
    rw [← List.append_assoc kept removed tail]
    refine .edit ?_ ?_ htail
    · rw [byteLength_append] at hkept
      exact hkept
    · omega

theorem Edit.le_iff (a b : Edit) : a.le b = true ↔
    a.span.start < b.span.start ∨ a.span.start = b.span.start ∧ a.span.stop ≤ b.span.stop := by
  simp [Edit.le]

theorem Edit.le_trans (a b c : Edit) (hab : a.le b) (hbc : b.le c) : a.le c := by
  rw [Edit.le_iff] at *
  omega

theorem Edit.le_total (a b : Edit) : a.le b || b.le a := by
  rw [Bool.or_eq_true, Edit.le_iff, Edit.le_iff]
  omega

theorem pairwise_le_mergeSort (es : List Edit) : (es.mergeSort Edit.le).Pairwise fun a b => a.le b :=
  List.pairwise_mergeSort Edit.le_trans Edit.le_total es

theorem sequential_of_apart {source : List Char} {es : List Edit} (hin : ∀ e ∈ es, e.span.In source)
    (hapart : es.Pairwise fun a b => a.span.Apart b.span) :
    (es.mergeSort Edit.le).Pairwise fun a b => a.span.stop ≤ b.span.start := by
  have hperm := es.mergeSort_perm Edit.le
  have hsorted : (es.mergeSort Edit.le).Pairwise fun a b => a.span.Apart b.span :=
    hperm.symm.pairwise hapart fun h => h.symm
  apply ((pairwise_le_mergeSort es).and hsorted).imp_of_mem
  intro a b ha hb hab
  have hb := (hin b (hperm.mem_iff.1 hb)).le
  obtain ⟨hle, hapart⟩ := hab
  rw [Edit.le_iff] at hle
  rcases hapart with h | h <;> omega

theorem woven_applyEdits {source : List Char} {es : List Edit} (hin : ∀ e ∈ es, e.span.In source)
    (hapart : es.Pairwise fun a b => a.span.Apart b.span) :
    Woven 0 source (es.mergeSort Edit.le) (applyEdits source es) := by
  have hmem : ∀ e ∈ es.mergeSort Edit.le, e.span.In source := fun e he =>
    hin e ((es.mergeSort_perm Edit.le).mem_iff.1 he)
  have hwoven := woven_splice hmem (sequential_of_apart hin hapart) (List.nil_append source).symm
    fun _ _ => Nat.zero_le _
  exact hwoven

end ModuleLowering.Text
