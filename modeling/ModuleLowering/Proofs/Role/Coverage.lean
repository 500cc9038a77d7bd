import ModuleLowering.Proofs.Role.Nesting
import ModuleLowering.Proofs.Role.Walks

namespace ModuleLowering

namespace Stream

variable {source : List Char} {s : Stream}

theorem depthAt_lt_of_closer? (hs : scan source = .ok s) {i j k : Nat} (hij : s.closer? i = some j) (hik : i < k)
    (hkj : k < j) : s.depthAt i < s.depthAt k := by
  obtain ⟨r, hr, ho⟩ := outline_of_scan hs
  rw [closer?_outline ho] at hij
  have hmates := mates_of_closer? (bracketed_of_read hr) hij
  obtain ⟨a, b, _, ha, hb, _⟩ := hmates.brackets
  obtain ⟨t, ht⟩ : ∃ t, r.tokens[k]? = some t :=
    ⟨_, Array.getElem?_eq_getElem (Nat.lt_trans hkj (lt_size_of_getElem? hb))⟩
  rw [depthAt_outline ho, depthAt_outline ho, depthAt_eq ha, depthAt_eq ht]
  exact hmates.inner k a t ha hik hkj ht

theorem not_isAt_closer (hs : scan source = .ok s) {i j : Nat} (hij : s.closer? i = some j) {kind : Kind}
    (hk : kind.isCloser = false) : s.isAt j kind = false := by
  obtain ⟨⟨region, kind', hcloser, hat⟩, _⟩ := (wellFormed_of_scan hs).closes i j hij
  rw [← Bool.not_eq_true]
  refine not_isAt_of_isAt hat ?_
  rintro rfl
  rw [Region.isCloser_of_closer? hcloser] at hk
  cases hk

theorem depthAt_succ_comma (hs : scan source = .ok s) {i : Nat} (hi : s.isAt i .comma) (hnext : s.isAt (i + 1) .comma) :
    s.depthAt i = s.depthAt (i + 1) := by
  obtain ⟨r, hr, ho⟩ := outline_of_scan hs
  rw [isAt_outline ho] at hi hnext
  obtain ⟨a, ha, hka⟩ := isAt_iff.1 hi
  obtain ⟨b, hb, hkb⟩ := isAt_iff.1 hnext
  rw [depthAt_outline ho, depthAt_outline ho, depthAt_eq ha, depthAt_eq hb]
  exact ((bracketed_of_read hr).steady i a b ha hb (by rw [hka]; rfl) (by rw [hkb]; rfl)).1

theorem lt_comma {i c : Nat} (hcomma : s.isAt c .comma) (hic : i ≤ c) {kind : Kind} (hi : s.isAt i kind)
    (hk : kind ≠ .comma) : i < c := by
  refine Nat.lt_of_le_of_ne hic ?_
  rintro rfl
  exact hk (kind_eq_of_isAt hi hcomma)

theorem listMarks_eq {i stop : Nat} (hi : i < stop ∧ i < s.tokens.size) :
    s.listMarks i stop = s.targetMarks i stop ++ s.listMarks (s.nextElement i stop) stop := by
  rw [listMarks, if_pos hi]

theorem objectMarks_of_target {i stop : Nat} (hi : i < stop ∧ i < s.tokens.size) (hkey : s.elementTarget true i ≠ i)
    (hstop : s.elementTarget true i ≤ stop) :
    s.objectMarks i stop = s.targetMarks (s.elementTarget true i) stop ++
      s.objectMarks (s.nextElement (s.elementTarget true i) stop) stop := by
  rw [objectMarks, if_pos hi]
  unfold elementTarget at hkey hstop ⊢
  dsimp only
  by_cases hrest : s.isAt i .ellipsis
  · simp only [hrest, if_true]
  · simp only [if_neg hrest, Bool.true_and] at hkey hstop ⊢
    by_cases hcolon : s.isAt (s.afterKey i) .colon
    · simp only [if_pos hcolon] at hstop ⊢
      rw [if_pos ⟨hstop, hcolon⟩]
    · exact absurd (if_neg hcolon) hkey

theorem objectMarks_of_name {i stop : Nat} (hi : i < stop ∧ i < s.tokens.size) (hkey : s.elementTarget true i = i) :
    s.objectMarks i stop = (if s.isAt i .identifier then [.name i] else []) ++
      s.objectMarks (s.skipToComma (s.afterKey i) stop + 1) stop := by
  have hlt := s.lt_afterKey i
  rw [objectMarks, if_pos hi]
  unfold elementTarget at hkey
  dsimp only
  split at hkey
  · omega
  · rename_i hrest
    rw [if_neg hrest]
    split at hkey
    · omega
    · rename_i hcolon
      rw [if_neg fun h => hcolon (by rw [h.2]; rfl)]

section Comma

variable (hs : scan source = .ok s) {c : Nat} (hcomma : s.isAt c .comma)
include hs hcomma

theorem skip_le_comma {i : Nat} (hic : i < c) (hlow : s.depthAt c ≤ s.depthAt i) : s.skip i ≤ c := by
  unfold skip
  split
  · rename_i j hj
    by_contra hcj
    rcases Nat.lt_or_eq_of_le (Nat.le_of_lt_succ (Nat.lt_of_not_le hcj)) with hlt | rfl
    · have := depthAt_lt_of_closer? hs hj hic hlt
      omega
    · rw [not_isAt_closer hs hj rfl] at hcomma
      cases hcomma
  · exact hic

variable {p : Nat} (hlow : ∀ v, p ≤ v → v < c → s.depthAt c ≤ s.depthAt v)
include hlow

theorem afterKey_le_comma {i : Nat} (hpi : p ≤ i) (hic : i < c) : s.afterKey i ≤ c := by
  unfold afterKey
  split
  · exact skip_le_comma hs hcomma hic (hlow i hpi hic)
  · exact hic

theorem afterTarget_le_comma {i : Nat} (stop : Nat) (hpi : p ≤ i) (hic : i ≤ c) : s.afterTarget i stop ≤ c := by
  fun_induction afterTarget s i stop with
  | case1 i _ hkind ih => exact ih (by omega) (lt_comma hcomma hic (decide_eq_true hkind) (by decide))
  | case2 i _ hkind => exact lt_comma hcomma hic (decide_eq_true hkind) (by decide)
  | case3 i _ hkind | case4 i _ hkind =>
    have hlt := lt_comma hcomma hic (decide_eq_true hkind) (by decide)
    exact skip_le_comma hs hcomma hlt (hlow i hpi hlt)
  | case5 | case6 => exact hic

theorem skipToComma_le_comma {i stop : Nat} (hpi : p ≤ i) (hic : i ≤ c) (hstop : c < stop) :
    s.skipToComma i stop ≤ c := by
  fun_induction skipToComma s i stop with
  | case1 => exact hic
  | case2 i _ hnot ih =>
    have hlt : i < c := Nat.lt_of_le_of_ne hic (by rintro rfl; exact hnot hcomma)
    have hskip := s.lt_skip i
    exact ih (by omega) (skip_le_comma hs hcomma hlt (hlow i hpi hlt))
  | case3 => omega

theorem listMarks_subset {i stop : Nat} (hpi : p ≤ i) (hic : i ≤ c) (hstop : c < stop) :
    s.listMarks (c + 1) stop ⊆ s.listMarks i stop := by
  have hsize := lt_size_of_isAt hcomma
  have hle := s.le_afterTarget i stop
  have hafter := afterTarget_le_comma hs hcomma hlow stop hpi hic
  have hnext := skipToComma_le_comma hs hcomma hlow (by omega) hafter hstop
  have hmin := s.min_le_skipToComma (s.afterTarget i stop) stop
  rw [listMarks_eq (show i < stop ∧ i < s.tokens.size by omega), nextElement]
  refine List.Subset.trans ?_ (List.subset_append_right _ _)
  rcases Nat.lt_or_eq_of_le hnext with hnext | heq
  · exact listMarks_subset (by omega) hnext hstop
  · rw [heq]
    exact List.Subset.refl _
termination_by c - i

theorem elementTarget_le_comma {i : Nat} (inObject : Bool) (hpi : p ≤ i) (hic : i ≤ c)
    (hkey : inObject → i < c) : s.elementTarget inObject i ≤ c := by
  unfold elementTarget
  split
  · rename_i hrest
    exact lt_comma hcomma hic hrest nofun
  · split
    · rename_i hcolon
      rw [Bool.and_eq_true] at hcolon
      exact lt_comma hcomma (afterKey_le_comma hs hcomma hlow hpi (hkey hcolon.1)) hcolon.2 nofun
    · exact hic

theorem exists_rest_objectMarks {i stop : Nat} (hpi : p ≤ i) (hic : i < c) (hstop : c < stop) :
    ∃ j, i < j ∧ s.elementTarget true i ≤ j ∧ j ≤ c ∧
      s.objectMarks (s.skipToComma j stop + 1) stop ⊆ s.objectMarks i stop := by
  have hsize := lt_size_of_isAt hcomma
  have htarget := s.le_elementTarget true i
  have htargetc := elementTarget_le_comma hs hcomma hlow true hpi (Nat.le_of_lt hic) fun _ => hic
  by_cases hkey : s.elementTarget true i = i
  · have hlt := s.lt_afterKey i
    rw [objectMarks_of_name (by omega) hkey, hkey]
    exact ⟨s.afterKey i, hlt, Nat.le_of_lt hlt, afterKey_le_comma hs hcomma hlow hpi hic, List.subset_append_right _ _⟩
  · have hle := s.le_afterTarget (s.elementTarget true i) stop
    rw [objectMarks_of_target (by omega) hkey (by omega)]
    refine ⟨s.afterTarget (s.elementTarget true i) stop, by omega, hle, ?_, List.subset_append_right _ _⟩
    exact afterTarget_le_comma hs hcomma hlow stop (by omega) htargetc

theorem objectMarks_subset {i stop : Nat} (hpi : p ≤ i) (hic : i < c) (hstop : c < stop)
    (hfirst : ∀ v, s.elementTarget true i ≤ v → v < c → s.isAt v .comma → s.depthAt v ≠ s.depthAt c) :
    s.objectMarks (c + 1) stop ⊆ s.objectMarks i stop := by
  obtain ⟨j, hij, hle, hjc, hrest⟩ := exists_rest_objectMarks hs hcomma hlow hpi hic hstop
  have hnext := skipToComma_le_comma hs hcomma hlow (by omega) hjc hstop
  have hmin := s.min_le_skipToComma j stop
  refine List.Subset.trans ?_ hrest
  rcases Nat.lt_or_eq_of_le hnext with hnext | heq
  · -- A comma before `c` is deeper, so `c` does not stand directly behind it.
    have hat : s.isAt (s.skipToComma j stop) .comma := isAt_skipToComma (by omega)
    have hne := hfirst (s.skipToComma j stop) (by omega) hnext hat
    have hlt : s.skipToComma j stop + 1 < c := by
      refine Nat.lt_of_le_of_ne hnext fun heq => hne ?_
      rw [← heq] at hcomma ⊢
      exact depthAt_succ_comma hs hat hcomma
    have htarget := s.le_elementTarget true (s.skipToComma j stop + 1)
    exact objectMarks_subset (by omega) hlt hstop fun v hv => hfirst v (by omega)
  · rw [heq]
    exact List.Subset.refl _
termination_by c - i

end Comma

/-- Whether an element begins as a property. One without a colon behind it begins neither with a comma nor with the
bracket of a pattern. -/
def startsProperty (s : Stream) (i : Nat) : Bool :=
  s.isAt (s.afterKey i) .colon || !(s.isAt i .comma || s.opensPattern i)

theorem elementTarget_ne {i : Nat} (hkey : s.startsProperty i) (h : s.isAt i .comma || s.opensPattern i) :
    s.elementTarget true i ≠ i := by
  have hcolon : s.isAt (s.afterKey i) .colon := by simpa [startsProperty, h] using hkey
  have hlt := s.lt_afterKey i
  unfold elementTarget
  rw [Bool.true_and, if_pos hcolon]
  split <;> omega

def elementMark (s : Stream) (e : BindingElement) : Mark :=
  if e.inObject ∧ s.targetOf e = e.start then .name e.start else .target (s.targetOf e)

def elementMarks (s : Stream) (inObject : Bool) (i stop : Nat) : List Mark :=
  if inObject then s.objectMarks i stop else s.listMarks i stop

theorem targetMarks_of_identifier {i stop : Nat} (hi : i < stop) (hname : s.isAt i .identifier) :
    s.targetMarks i stop = [.target i] := by
  have hkind : s.kind? i = some .identifier := of_decide_eq_true hname
  rw [targetMarks, if_pos ⟨hi, lt_size_of_isAt hname⟩]
  simp only [hkind]

theorem elementTarget_lt (hs : scan source = .ok s) {inObject : Bool} {o i stop : Nat}
    (hclose : s.closer? o = some stop) (hoi : o < i) (hi : i < stop) {kind : Kind}
    (hkind : s.isAt (s.elementTarget inObject i) kind) (hk : kind.isCloser = false) :
    s.elementTarget inObject i < stop := by
  have hle : s.elementTarget inObject i ≤ stop := by
    unfold elementTarget
    split
    · exact hi
    · split
      · rename_i hcolon
        rw [Bool.and_eq_true] at hcolon
        have hkey : s.afterKey i ≤ stop := by
          unfold afterKey skip
          split
          · split
            · rename_i j hj
              exact (balanced_of_scan hs).nested o stop i j hclose hj hoi hi
            · exact hi
          · exact hi
        refine Nat.lt_of_le_of_ne hkey fun heq => ?_
        have hnot : s.isAt stop .colon = false := not_isAt_closer hs hclose rfl
        rw [← heq, hcolon.2] at hnot
        cases hnot
      · exact Nat.le_of_lt hi
  refine Nat.lt_of_le_of_ne hle fun heq => ?_
  have := not_isAt_closer hs hclose hk
  rw [← heq, hkind] at this
  cases this

theorem targetMarks_subset_elementMarks {inObject : Bool} {i stop : Nat} (hi : i < stop ∧ i < s.tokens.size)
    (htarget : s.elementTarget inObject i ≤ stop) (hkey : inObject → s.elementTarget true i ≠ i) :
    s.targetMarks (s.elementTarget inObject i) stop ⊆ s.elementMarks inObject i stop := by
  unfold elementMarks
  cases inObject with
  | true =>
    rw [if_pos rfl, objectMarks_of_target hi (hkey rfl) htarget]
    exact List.subset_append_left _ _
  | false =>
    rw [if_neg nofun, listMarks_eq hi]
    refine List.Subset.trans ?_ (List.subset_append_left _ _)
    unfold elementTarget
    split
    · rename_i hrest
      have hkind : s.kind? i = some .ellipsis := of_decide_eq_true hrest
      have heq : s.targetMarks i stop = s.targetMarks (i + 1) stop := by
        rw [targetMarks, if_pos hi]
        simp only [hkind]
      rw [heq]
      exact List.Subset.refl _
    · rw [Bool.false_and, if_neg nofun]
      exact List.Subset.refl _

theorem elementMarks_subset (hs : scan source = .ok s) {inObject : Bool} {o i stop : Nat}
    (hclose : s.closer? o = some stop) (hoi : o < i) (hkey : inObject → s.startsProperty i)
    (hcomma : s.commaAtDepth (s.depthAt o + 1) (s.elementTarget inObject i) stop < stop) :
    s.elementMarks inObject (s.commaAtDepth (s.depthAt o + 1) (s.elementTarget inObject i) stop + 1) stop ⊆
      s.elementMarks inObject i stop := by
  have htarget := s.le_elementTarget inObject i
  have hle := s.le_commaAtDepth (s.depthAt o + 1) (s.elementTarget inObject i) stop
  obtain ⟨hat, hdepth, hfirst⟩ := commaAtDepth_spec hcomma
  generalize s.commaAtDepth (s.depthAt o + 1) (s.elementTarget inObject i) stop = c at *
  have hlow (v : Nat) (hv : i ≤ v) (hvc : v < c) : s.depthAt c ≤ s.depthAt v := by
    rw [hdepth]
    exact depthAt_lt_of_closer? hs hclose (by omega) (by omega)
  unfold elementMarks
  cases inObject with
  | false => exact listMarks_subset hs hat hlow (Nat.le_refl i) (by omega) hcomma
  | true =>
    have hic : i < c := by
      refine Nat.lt_of_le_of_ne (by omega) ?_
      rintro rfl
      exact elementTarget_ne (hkey rfl) (by rw [hat]; rfl) (by omega)
    exact objectMarks_subset hs hat hlow (Nat.le_refl i) hic hcomma fun v hv hvc hk => hdepth ▸ hfirst v hv hvc hk

theorem elementMark_mem_elementMarks (hs : scan source = .ok s) {inObject : Bool} {o i stop : Nat}
    (hclose : s.closer? o = some stop) (hoi : o < i) (hi : i < stop ∧ i < s.tokens.size)
    (hname : s.isAt (s.targetOf ⟨inObject, i⟩) .identifier) :
    s.elementMark ⟨inObject, i⟩ ∈ s.elementMarks inObject i stop := by
  rw [elementMark]
  dsimp only
  split
  · rename_i hself
    obtain ⟨rfl, hself⟩ := hself
    rw [hself] at hname
    rw [elementMarks, if_pos rfl, objectMarks_of_name hi hself, if_pos hname]
    exact List.mem_append_left _ List.mem_cons_self
  · rename_i hother
    have hn := elementTarget_lt hs hclose hoi hi.1 hname rfl
    refine targetMarks_subset_elementMarks hi (Nat.le_of_lt hn) ?_ ?_
    · rintro rfl heq
      exact hother ⟨rfl, heq⟩
    · rw [targetMarks_of_identifier hn hname]
      exact List.mem_singleton.2 rfl

mutual

theorem mem_targetMarks (hs : scan source = .ok s) {i stop : Nat} (hi : i < stop) {e : BindingElement}
    (he : e ∈ s.patternElements i) (hname : s.isAt (s.targetOf e) .identifier)
    (hkeys : ∀ p ∈ s.patternElements i, p.inObject → p.start ≤ s.targetOf e → s.startsProperty p.start) :
    s.elementMark e ∈ s.targetMarks i stop := by
  obtain ⟨t, j, ht, hj, hopens, hmem⟩ := exists_of_mem_patternElements he
  have hlt := lt_size_of_getElem? ht
  rw [patternElements_of_closer? ht hj hopens] at hkeys
  rw [← depthAt_eq ht] at hmem hkeys
  have hmarks := mem_elementMarks hs hj (Nat.lt_succ_self i) hmem hname hkeys
  have hkind : s.kind? i = some t.kind := by rw [kind?, ht, Option.map_some]
  obtain hk | hk : t.kind = .openBrace ∨ t.kind = .openBracket := by simpa [opensPattern, isAt, hkind] using hopens
  · rw [targetMarks, if_pos ⟨hi, hlt⟩]
    rw [hk] at hmarks hkind
    simp only [hkind, hj]
    exact List.mem_cons_of_mem _ hmarks
  · rw [targetMarks, if_pos ⟨hi, hlt⟩]
    rw [hk] at hmarks hkind
    simp only [hkind, hj]
    exact hmarks
termination_by 2 * (s.tokens.size - i)

theorem mem_elementMarks (hs : scan source = .ok s) {inObject : Bool} {o i stop : Nat}
    (hclose : s.closer? o = some stop) (hoi : o < i) {e : BindingElement}
    (he : e ∈ s.elementsFrom inObject (s.depthAt o + 1) i stop) (hname : s.isAt (s.targetOf e) .identifier)
    (hkeys : ∀ p ∈ s.elementsFrom inObject (s.depthAt o + 1) i stop, p.inObject → p.start ≤ s.targetOf e →
      s.startsProperty p.start) : s.elementMark e ∈ s.elementMarks inObject i stop := by
  rw [elementsFrom] at he hkeys
  split at he
  · rename_i hi
    rw [if_pos hi] at hkeys
    dsimp only at he hkeys
    have htarget := s.le_elementTarget inObject i
    have hcomma := s.le_commaAtDepth (s.depthAt o + 1) (s.elementTarget inObject i) stop
    have hfirst := hkeys ⟨inObject, i⟩ List.mem_cons_self
    -- The name is that of the first element, one in its pattern, or one behind the next comma.
    rcases List.mem_cons.1 he with rfl | he
    · exact elementMark_mem_elementMarks hs hclose hoi hi hname
    rcases List.mem_append.1 he with he | he
    · obtain ⟨t, j, ht, _, hopens, _⟩ := exists_of_mem_patternElements he
      have hlt := lt_start_of_mem_patternElements he
      have hle := s.le_targetOf e
      have hn : s.elementTarget inObject i < stop := by
        obtain hk | hk := Bool.or_eq_true_iff.1 hopens
        · exact elementTarget_lt hs hclose hoi hi.1 hk rfl
        · exact elementTarget_lt hs hclose hoi hi.1 hk rfl
      refine targetMarks_subset_elementMarks hi (Nat.le_of_lt hn) ?_ (mem_targetMarks hs hn he hname ?_)
      · rintro rfl heq
        refine elementTarget_ne (hfirst rfl (by dsimp only; omega)) ?_ heq
        rw [heq] at hopens
        rw [hopens, Bool.or_true]
      · exact fun p hp => hkeys p (List.mem_cons_of_mem _ (List.mem_append_left _ hp))
    · have hle := le_start_of_mem_elementsFrom he
      have hle' := s.le_targetOf e
      have hc : s.commaAtDepth (s.depthAt o + 1) (s.elementTarget inObject i) stop < stop := by
        rw [elementsFrom] at he
        split at he
        · omega
        · cases he
      refine elementMarks_subset hs hclose hoi (fun hin => hfirst hin (by dsimp only; omega)) hc ?_
      have hoc := Nat.lt_succ_of_lt (Nat.lt_of_lt_of_le hoi (Nat.le_trans htarget hcomma))
      refine mem_elementMarks hs hclose hoc he hname fun p hp => ?_
      exact hkeys p (List.mem_cons_of_mem _ (List.mem_append_right _ hp))
  · cases he
termination_by 2 * (s.tokens.size - i) + 1

end

end Stream

end ModuleLowering
