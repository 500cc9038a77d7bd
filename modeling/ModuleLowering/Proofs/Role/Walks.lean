import ModuleLowering.Proofs.Role.Safety
import ModuleLowering.Proofs.Statement.Elements

/-!
Walks over binding targets read the kinds of tokens and their partners, and nothing else: roles and marks set
meanwhile do not change where they lead, nor does the place of the tokens in the source.
-/

namespace ModuleLowering

namespace Stream

structure Congruent (s r : Stream) : Prop where
  size_eq : s.tokens.size = r.tokens.size
  kind?_eq : ∀ i, s.kind? i = r.kind? i
  closer?_eq : ∀ i, s.closer? i = r.closer? i

variable {s r : Stream}

namespace Congruent

theorem of_outline (ho : s.outline = r.outline) : Congruent s r where
  size_eq := size_of_outline ho
  kind?_eq i := by
    have := congrArg (Option.map Token.kind) (getElem?_outline ho i)
    simpa [Function.comp_def, kind?] using this
  closer?_eq := closer?_outline ho

variable (h : Congruent s r)
include h

theorem isAt_eq (i : Nat) (kind : Kind) : s.isAt i kind = r.isAt i kind := by rw [isAt, isAt, h.kind?_eq]

theorem skip_eq (i : Nat) : s.skip i = r.skip i := by rw [skip, skip, h.closer?_eq]

theorem afterKey_eq (i : Nat) : s.afterKey i = r.afterKey i := by rw [afterKey, afterKey, h.isAt_eq, h.skip_eq]

theorem skipToComma_eq (i stop : Nat) : s.skipToComma i stop = r.skipToComma i stop := by
  fun_induction skipToComma r i stop with
  | case1 i hi hcomma => rw [skipToComma, if_pos hi, h.isAt_eq, if_pos hcomma]
  | case2 i hi hcomma ih => rw [skipToComma, if_pos hi, h.isAt_eq, if_neg hcomma, h.skip_eq, ih]
  | case3 i hi => rw [skipToComma, if_neg hi]

theorem afterTarget_eq (i stop : Nat) : s.afterTarget i stop = r.afterTarget i stop := by
  have hkind := h.kind?_eq i
  fun_induction afterTarget r i stop with
  | case1 i hi hk ih =>
    rw [afterTarget, if_pos hi, hkind, hk]
    exact ih (h.kind?_eq (i + 1))
  | case2 i hi hk => rw [afterTarget, if_pos hi, hkind, hk]
  | case3 i hi hk | case4 i hi hk =>
    rw [afterTarget, if_pos hi, hkind, hk]
    exact h.skip_eq i
  | case5 i hi hellipsis hidentifier hbrace hbracket =>
    rw [afterTarget, if_pos hi, hkind]
    split
    · exact absurd ‹_› hellipsis
    · exact absurd ‹_› hidentifier
    · exact absurd ‹_› hbrace
    · exact absurd ‹_› hbracket
    · rfl
  | case6 i hi => rw [afterTarget, if_neg hi]

theorem nextElement_eq (i stop : Nat) : s.nextElement i stop = r.nextElement i stop := by
  rw [nextElement, nextElement, h.afterTarget_eq, h.skipToComma_eq]

theorem members_eq (i stop : Nat) : s.members i stop = r.members i stop := by
  fun_induction members r i stop with
  | case1 i hi j hj ih =>
    rw [members, if_pos hi]
    split
    · rename_i j' hj'
      rw [h.closer?_eq, hj] at hj'
      cases hj'
      rw [ih]
    · rename_i hnone
      rw [h.closer?_eq, hj] at hnone
      cases hnone
  | case2 i hi hnone ih =>
    rw [members, if_pos hi]
    split
    · rename_i j hj
      rw [h.closer?_eq, hnone] at hj
      cases hj
    · rw [ih]
  | case3 i hi => rw [members, if_neg hi]

mutual

theorem targetMarks_eq (i stop : Nat) : s.targetMarks i stop = r.targetMarks i stop := by
  unfold targetMarks
  rw [h.size_eq, h.kind?_eq, h.closer?_eq]
  split
  · split
    · exact targetMarks_eq (i + 1) stop
    · rfl
    · split
      · rename_i j _
        rw [objectMarks_eq (i + 1) j]
      · rfl
    · split
      · rename_i j _
        exact listMarks_eq (i + 1) j
      · rfl
    · rfl
  · rfl
termination_by 2 * (r.tokens.size - i)

theorem listMarks_eq (i stop : Nat) : s.listMarks i stop = r.listMarks i stop := by
  unfold listMarks
  rw [h.size_eq, h.nextElement_eq]
  split
  · rename_i hi
    have := r.lt_nextElement (Nat.le_of_lt hi.1)
    rw [targetMarks_eq i stop, listMarks_eq (r.nextElement i stop) stop]
  · rfl
termination_by 2 * (r.tokens.size - i) + 1

theorem objectMarks_eq (i stop : Nat) : s.objectMarks i stop = r.objectMarks i stop := by
  unfold objectMarks
  simp only [h.size_eq, h.nextElement_eq, h.afterKey_eq, h.isAt_eq, h.skipToComma_eq]
  split
  · rename_i hi
    have hkey := r.lt_afterKey i
    split
    · have := r.lt_nextElement (show i + 1 ≤ stop by omega)
      rw [targetMarks_eq (i + 1) stop, objectMarks_eq (r.nextElement (i + 1) stop) stop]
    · split
      · have := r.lt_nextElement (show r.afterKey i + 1 ≤ stop by omega)
        rw [targetMarks_eq (r.afterKey i + 1) stop,
          objectMarks_eq (r.nextElement (r.afterKey i + 1) stop) stop]
      · have := r.min_le_skipToComma (r.afterKey i) stop
        rw [objectMarks_eq (r.skipToComma (r.afterKey i) stop + 1) stop]
  · rfl
termination_by 2 * (r.tokens.size - i) + 1

end

end Congruent

theorem initializerEnd_of_getElem? {j : Nat} {t : Token} (ht : s.tokens[j]? = some t) :
    s.initializerEnd j = if s.endsInitializer j t then j else s.initializerEnd (s.skip j) := by
  rw [initializerEnd]
  split
  · rename_i hnone
    rw [ht] at hnone
    cases hnone
  · rename_i hsome
    rw [ht] at hsome
    cases hsome
    rfl

variable (ho : s.outline = r.outline)
include ho

theorem depthAt_outline (i : Nat) : s.depthAt i = r.depthAt i := by
  have := congrArg (Option.map Token.depth) (getElem?_outline ho i)
  rw [Option.map_map, Option.map_map] at this
  exact congrArg (Option.getD · 0) this

theorem targetOf_outline (e : BindingElement) : s.targetOf e = r.targetOf e := by
  simp only [targetOf, elementTarget, isAt_outline ho, (Congruent.of_outline ho).afterKey_eq]

theorem beginsIn_outline {o stop : Nat} {e : BindingElement} (h : s.BeginsIn o stop e) : r.BeginsIn o stop e where
  closer := closer?_outline ho o ▸ h.closer
  bracket := isAt_outline ho o _ ▸ h.bracket
  lt_stop := h.lt_stop
  place := by simpa only [isAt_outline ho, depthAt_outline ho] using h.place

end Stream

end ModuleLowering
