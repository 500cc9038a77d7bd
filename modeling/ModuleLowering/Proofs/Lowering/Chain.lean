import ModuleLowering.Proofs.Role.WellFormed
import ModuleLowering.Proofs.Text.Weave

namespace ModuleLowering

open Text

namespace Stream

/-- The span of the tokens from `i` up to `j`. Where there are none it is the point after the token before
`j`. -/
def spanOf (s : Stream) (i j : Nat) : Span := ⟨if i < j then s.offsetAt i else s.stopBefore j, s.stopBefore j⟩

theorem spanOf_self (s : Stream) (i : Nat) : s.spanOf i i = .point (s.stopBefore i) := by
  simp [spanOf, Span.point]

theorem spanOf_of_lt (s : Stream) {i j : Nat} (h : i < j) : s.spanOf i j = ⟨s.offsetAt i, s.stopBefore j⟩ := by
  rw [spanOf, if_pos h]

theorem span_eq_spanOf {s : Stream} {i : Nat} {t : Token} (ht : s.tokens[i]? = some t) :
    t.span = s.spanOf i (i + 1) := by
  rw [s.spanOf_of_lt (Nat.lt_add_one i), offsetAt, stopBefore, before?_succ, ht]
  rfl

namespace WellFormed

variable {source : List Char} {s : Stream} (h : s.WellFormed source)
include h

theorem spanOf_in {i j : Nat} (hij : i ≤ j) (hj : j ≤ s.tokens.size) : (s.spanOf i j).In source := by
  have hstop := h.isBoundary_stopBefore hj
  rcases Nat.eq_or_lt_of_le hij with rfl | hlt
  · rw [spanOf_self]
    exact ⟨Nat.le_refl _, hstop, hstop⟩
  · rw [s.spanOf_of_lt hlt]
    exact ⟨Nat.le_of_lt (h.offsetAt_lt_stopBefore hlt hj), h.isBoundary_offsetAt (by omega), hstop⟩

theorem spanOf_sequential {i j k l : Nat} (hjk : j ≤ k) (hkl : k ≤ l) (hl : l ≤ s.tokens.size) :
    (s.spanOf i j).stop ≤ (s.spanOf k l).start := by
  rcases Nat.eq_or_lt_of_le hkl with rfl | hlt
  · rw [spanOf_self]
    exact h.stopBefore_le_stopBefore hjk hl
  · rw [s.spanOf_of_lt hlt]
    exact h.stopBefore_le_offsetAt hjk (by omega)

theorem lead_spanOf {i j : Nat} (hij : i ≤ j) (hpos : 0 < j) (hj : j ≤ s.tokens.size) :
    prologueOffset source ≤ (s.spanOf i j).start ∧ prologueOffset source < (s.spanOf i j).stop := by
  have hstop : prologueOffset source < s.stopBefore j := by
    have := h.lead_le_offsetAt (show j - 1 < s.tokens.size by omega)
    have := h.offsetAt_lt_stopBefore (show j - 1 < j by omega) hj
    omega
  rcases Nat.eq_or_lt_of_le hij with rfl | hlt
  · rw [spanOf_self]
    exact ⟨Nat.le_of_lt hstop, hstop⟩
  · rw [s.spanOf_of_lt hlt]
    exact ⟨h.lead_le_offsetAt (by omega), hstop⟩

end WellFormed

inductive Chain (s : Stream) (P : Nat → Nat → Prop) : Nat → Nat → List Span → Prop
  | nil {i j : Nat} (h : i ≤ j) : Chain s P i j []
  | cons {i j a b : Nat} {spans : List Span} (hi : i ≤ a) (hab : a ≤ b) (hP : P a b)
      (h : Chain s P b j spans) : Chain s P i j (s.spanOf a b :: spans)

namespace Chain

variable {s : Stream} {P Q : Nat → Nat → Prop} {i j k : Nat} {xs ys : List Span}

theorem single {a b : Nat} (hi : i ≤ a) (hab : a ≤ b) (hj : b ≤ j) (hP : P a b) :
    s.Chain P i j [s.spanOf a b] := .cons hi hab hP (.nil hj)

theorem le (h : s.Chain P i j xs) : i ≤ j := by
  induction h with
  | nil h => exact h
  | cons hi hab _ _ ih => omega

theorem mono_left (h : s.Chain P j k xs) (hij : i ≤ j) : s.Chain P i k xs := by
  cases h with
  | nil h => exact .nil (by omega)
  | cons hi hab hP h => exact .cons (by omega) hab hP h

theorem append (h : s.Chain P i j xs) (h' : s.Chain P j k ys) : s.Chain P i k (xs ++ ys) := by
  induction h with
  | nil h => exact h'.mono_left h
  | cons hi hab hP _ ih => exact .cons hi hab hP (ih h')

theorem mono (h : s.Chain P i j xs) (hPQ : ∀ a b, P a b → Q a b) : s.Chain Q i j xs := by
  induction h with
  | nil h => exact .nil h
  | cons hi hab hP _ ih => exact .cons hi hab (hPQ _ _ hP) ih

theorem exists_of_mem (h : s.Chain P i j xs) {span : Span} (hspan : span ∈ xs) :
    ∃ a b, span = s.spanOf a b ∧ i ≤ a ∧ a ≤ b ∧ b ≤ j ∧ P a b := by
  induction h with
  | nil => cases hspan
  | @cons i j a b spans hi hab hP h ih =>
    rcases List.mem_cons.1 hspan with rfl | hspan
    · exact ⟨a, b, rfl, hi, hab, h.le, hP⟩
    · obtain ⟨c, d, rfl, hc, hcd, hd, hP'⟩ := ih hspan
      exact ⟨c, d, rfl, by omega, hcd, hd, hP'⟩

theorem pairwise {source : List Char} (h : s.Chain P i j xs) (hs : s.WellFormed source)
    (hj : j ≤ s.tokens.size) : xs.Pairwise Span.Apart := by
  induction h with
  | nil => exact .nil
  | @cons i j a b spans hi hab hP h ih =>
    refine List.pairwise_cons.2 ⟨fun span hspan => ?_, ih hj⟩
    obtain ⟨c, d, rfl, hc, hcd, hd, _⟩ := h.exists_of_mem hspan
    exact .inl (hs.spanOf_sequential hc hcd (by omega))

end Chain

end Stream

end ModuleLowering
