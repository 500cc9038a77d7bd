import ModuleLowering.Proofs.Role.Initializers

namespace ModuleLowering

def Mark.named? : Mark → Option Nat
  | target i | name i => some i
  | pattern _ _ => none

namespace Stream

def Clear (s : Stream) (o i : Nat) : Prop := ∀ a, o < a → ¬ s.Surrounds a i

/-- A comma in no bracket after `o`, but in a substitution that begins after it. -/
structure StrayComma (s : Stream) (o k : Nat) : Prop where
  comma : s.isAt k .comma
  clear : s.Clear o k
  interpolated : ∃ c, o < c ∧ s.Interpolates c k

variable {source : List Char} {s : Stream}

theorem skip_of_isAt (hs : scan source = .ok s) {i : Nat} {kind : Kind} (hi : s.isAt i kind)
    (hk : kind.isOpener = false) : s.skip i = i + 1 := by
  rw [skip, closer?_eq_none hs hi hk]

theorem commaAtDepth_le {depth i stop : Nat} (hi : i ≤ stop) : s.commaAtDepth depth i stop ≤ stop := by
  fun_induction commaAtDepth s depth i stop with
  | case1 => exact hi
  | case2 _ hlt _ ih => exact ih hlt
  | case3 => exact hi

theorem commaAtDepth_le_comma {depth i k stop : Nat} (hik : i ≤ k) (hk : k < stop) (hcomma : s.isAt k .comma)
    (hdepth : s.depthAt k = depth) : s.commaAtDepth depth i stop ≤ k := by
  fun_induction commaAtDepth s depth i stop with
  | case1 => exact hik
  | case2 i _ hnot ih =>
    apply ih
    refine Nat.lt_of_le_of_ne hik ?_
    rintro rfl
    obtain ⟨t, ht, hkind⟩ := isAt_iff.1 hcomma
    rw [depthAt_eq ht] at hdepth
    exact hnot (by simp [ht, hkind, hdepth])
  | case3 => omega

theorem clear_iff {o k : Nat} : s.Clear o k ↔ ∀ a < k, o < a → (s.closer? a).all (· ≤ k) := by
  constructor
  · intro h a hak hoa
    cases hab : s.closer? a with
    | none => rfl
    | some b =>
      by_contra hbk
      exact h a hoa ⟨b, hab, hak, Nat.lt_of_not_le (by simpa using hbk)⟩
  · rintro h a hoa ⟨b, hab, hak, hkb⟩
    have := h a hak hoa
    rw [hab, Option.all_some, decide_eq_true_eq] at this
    omega

instance (s : Stream) (o k : Nat) : Decidable (s.Clear o k) := decidable_of_iff _ clear_iff.symm

theorem clear_succ (s : Stream) (o : Nat) : s.Clear o (o + 1) := by
  rintro a hoa ⟨_, _, hlt, _⟩
  omega

section Clear

variable (hs : scan source = .ok s) {a o i : Nat}
include hs

theorem not_surrounds_skip (h : ¬ s.Surrounds a i) : ¬ s.Surrounds a (s.skip i) := by
  rintro ⟨b, hab, hlt, hb⟩
  have hskip := s.lt_skip i
  rcases Nat.lt_trichotomy a i with hbefore | rfl | hafter
  · exact h ⟨b, hab, hbefore, by omega⟩
  · rw [skip, hab] at hb
    exact Nat.not_succ_lt_self hb
  · have := lt_skip_of_closer? hs hab hafter hlt
    omega

theorem not_surrounds_succ (h : ¬ s.Surrounds a i) {kind : Kind} (hi : s.isAt i kind) (hk : kind.isOpener = false) :
    ¬ s.Surrounds a (i + 1) := skip_of_isAt hs hi hk ▸ not_surrounds_skip hs h

theorem not_surrounds_afterTarget (h : ¬ s.Surrounds a i) (stop : Nat) : ¬ s.Surrounds a (s.afterTarget i stop) := by
  fun_induction afterTarget s i stop with
  | case1 i _ hkind ih => exact ih (not_surrounds_succ hs h (decide_eq_true hkind) rfl)
  | case2 i _ hkind => exact not_surrounds_succ hs h (decide_eq_true hkind) rfl
  | case3 | case4 => exact not_surrounds_skip hs h
  | case5 | case6 => exact h

theorem not_surrounds_skipToComma (h : ¬ s.Surrounds a i) {stop : Nat} (hlt : s.skipToComma i stop < stop) :
    ¬ s.Surrounds a (s.skipToComma i stop) := by
  fun_induction skipToComma s i stop with
  | case1 => exact h
  | case2 i _ _ ih => exact ih (not_surrounds_skip hs h) hlt
  | case3 => exact absurd hlt (Nat.lt_irrefl _)

end Clear

theorem Clear.skipToComma_le (hs : scan source = .ok s) {o i k stop : Nat} (h : s.Clear o k) (hoi : o < i)
    (hik : i ≤ k) (hk : k < stop) (hcomma : s.isAt k .comma) : s.skipToComma i stop ≤ k := by
  fun_induction Stream.skipToComma s i stop with
  | case1 => exact hik
  | case2 i _ hnot ih =>
    have hlt : i < k := by
      refine Nat.lt_of_le_of_ne hik ?_
      rintro rfl
      exact hnot hcomma
    refine ih (Nat.lt_trans hoi (s.lt_skip i)) ?_
    unfold Stream.skip
    split
    · rename_i j hj
      by_contra hjk
      rcases Nat.lt_or_eq_of_le (Nat.le_of_lt_succ (Nat.lt_of_not_le hjk)) with hkj | rfl
      · exact h i hoi ⟨j, hj, hlt, hkj⟩
      · rw [not_isAt_closer hs hj rfl] at hcomma
        cases hcomma
    · exact hlt
  | case3 => omega

section Inside

variable (hs : scan source = .ok s) {o c : Nat} (hoc : s.closer? o = some c)
include hs hoc

theorem clear_of_depth {k : Nat} (hkc : k < c) (hdepth : s.depthAt k = s.depthAt o + 1) :
    s.Clear o k := by
  rintro a hoa ⟨j, haj, hak, hkj⟩
  have := depthAt_lt_of_closer? hs haj hak hkj
  have := depthAt_lt_of_closer? hs hoc hoa (by omega)
  omega

theorem Clear.depth_iff {k : Nat} (h : s.Clear o k) (hok : o < k) (hkc : k < c) :
    s.depthAt k = s.depthAt o + 1 ↔ ¬ ∃ a, o < a ∧ s.Interpolates a k := by
  obtain ⟨r, hr, ho⟩ := outline_of_scan hs
  have hb := bracketed_of_read hr
  have hn := nested_of_read hr
  have hlow := depthAt_lt_of_closer? hs hoc hok hkc
  have hmates := mates_of_closer? hb (closer?_outline ho o ▸ hoc)
  obtain ⟨p, q, _, hp, hq, _⟩ := hmates.brackets
  obtain ⟨t, ht⟩ : ∃ t, r.tokens[k]? = some t :=
    ⟨_, Array.getElem?_eq_getElem (Nat.lt_trans hkc (lt_size_of_getElem? hq))⟩
  have hsurrounds (a : Nat) (hoa : o < a) : ¬ r.Surrounds a k := fun ha => h a hoa ((surrounds_outline ho a k).2 ha)
  simp only [depthAt_outline ho, depthAt_eq hp, depthAt_eq ht, interpolates_outline ho] at hlow ⊢
  constructor
  · -- A substitution of the list is deeper than its bracket, and what it holds is deeper still.
    rintro heq ⟨a, hoa, d, hsub, hak, hkd⟩
    obtain ⟨_, _, m, ha, _, _, _, hinner⟩ := hsub.chunks
    obtain ⟨u, hu, _, rfl⟩ := exists_of_levels ha
    have := hinner k t.kind t.depth hak hkd (levels_of_getElem? ht)
    have := hmates.inner a p u hp hoa (by omega) hu
    omega
  · intro hnone
    by_contra hne
    -- What is one level deeper begins behind the bracket, as a pair or as a substitution.
    obtain ⟨a, henc⟩ := hn.enclosed k t.kind t.depth (levels_of_getElem? ht) (p.depth + 1) (by omega)
    have hoa : o < a := by
      obtain ⟨x, hx, _⟩ := henc.opener
      rcases Nat.lt_trichotomy a o with hlt | rfl | hlt
      · have := henc.deeper o p.kind p.depth hlt (Nat.le_of_lt hok) (levels_of_getElem? hp)
        omega
      · rw [levels_of_getElem? hp] at hx
        have := congrArg Prod.snd (Option.some.inj hx)
        omega
      · exact hlt
    rcases (encloses_iff hb hn).1 ⟨_, henc⟩ with hsurr | hinter
    · exact hsurrounds a hoa hsurr
    · exact hnone ⟨a, hoa, hinter⟩

theorem strayComma_iff {k : Nat} (hok : o < k) (hkc : k < c) :
    s.StrayComma o k ↔ s.isAt k .comma ∧ s.Clear o k ∧ s.depthAt k ≠ s.depthAt o + 1 := by
  constructor
  · rintro ⟨hcomma, hclear, hinter⟩
    exact ⟨hcomma, hclear, fun heq => (hclear.depth_iff hs hoc hok hkc).1 heq hinter⟩
  · rintro ⟨hcomma, hclear, hne⟩
    refine ⟨hcomma, hclear, ?_⟩
    by_contra hinter
    exact hne ((hclear.depth_iff hs hoc hok hkc).2 hinter)

theorem depth_of_not_stray {k : Nat} (hok : o < k) (hkc : k < c) (hcomma : s.isAt k .comma) (hclear : s.Clear o k)
    (hstray : ¬ s.StrayComma o k) : s.depthAt k = s.depthAt o + 1 := by
  by_contra hne
  exact hstray ((strayComma_iff hs hoc hok hkc).2 ⟨hcomma, hclear, hne⟩)

theorem skipToComma_le_commaAtDepth {i : Nat} (hoi : o < i) (hic : i ≤ c) :
    s.skipToComma i c ≤ s.commaAtDepth (s.depthAt o + 1) i c := by
  have hle : s.commaAtDepth (s.depthAt o + 1) i c ≤ c := commaAtDepth_le hic
  rcases Nat.lt_or_eq_of_le hle with hlt | heq
  · obtain ⟨hcomma, hdepth, _⟩ := commaAtDepth_spec hlt
    have hge := s.le_commaAtDepth (s.depthAt o + 1) i c
    exact (clear_of_depth hs hoc hlt hdepth).skipToComma_le hs hoi hge hlt hcomma
  · rw [heq]
    exact s.skipToComma_le i c

theorem skipToComma_eq_iff {i : Nat} (h : s.Clear o i) (hoi : o < i) (hic : i ≤ c) :
    s.skipToComma i c = s.commaAtDepth (s.depthAt o + 1) i c ↔
      ∀ k, i ≤ k → k < s.commaAtDepth (s.depthAt o + 1) i c → ¬ s.StrayComma o k := by
  have hle : s.commaAtDepth (s.depthAt o + 1) i c ≤ c := commaAtDepth_le hic
  constructor
  · rintro heq k hik hk ⟨hcomma, hclear, _⟩
    have := hclear.skipToComma_le hs hoi hik (show k < c by omega) hcomma
    omega
  · intro hnone
    by_contra hne
    have hlt := Nat.lt_of_le_of_ne (skipToComma_le_commaAtDepth hs hoc hoi hic) hne
    have hmin := s.min_le_skipToComma i c
    have hclear : s.Clear o (s.skipToComma i c) := fun a ha => not_surrounds_skipToComma hs (h a ha) (by omega)
    have hcomma : s.isAt (s.skipToComma i c) .comma := isAt_skipToComma (by omega)
    have hdepth := depth_of_not_stray hs hoc (by omega) (by omega) hcomma hclear (hnone _ (by omega) hlt)
    have := commaAtDepth_le_comma (s := s) (i := i) (by omega) (by omega : _ < c) hcomma hdepth
    omega

end Inside

def StartsElement (s : Stream) (o i : Nat) : Prop :=
  i = o + 1 ∨ ∃ v, i = v + 1 ∧ o < v ∧ s.isAt v .comma ∧ s.depthAt v = s.depthAt o + 1

/-- The token at `k` is in the default value of an element of the list at `o`. An equals sign at the level of the
list, behind another token of the element, comes before it and no separator between them. -/
def InDefault (s : Stream) (o k : Nat) : Prop :=
  ∃ p, o < p ∧ p + 1 < k ∧ s.isAt (p + 1) .equals ∧ s.depthAt (p + 1) = s.depthAt o + 1 ∧
    ∀ v, p ≤ v → v ≤ k → s.isAt v .comma → s.depthAt v ≠ s.depthAt o + 1

theorem StartsElement.not_inDefault {o i k : Nat} (hi : s.StartsElement o i) (hik : i ≤ k)
    (hnone : ∀ q, i < q → q < k → s.isAt q .equals → s.depthAt q ≠ s.depthAt o + 1) : ¬ s.InDefault o k := by
  rintro ⟨p, hop, hpk, hequals, hdepth, hsep⟩
  by_cases hpi : p < i
  · rcases hi with rfl | ⟨v, rfl, _, hcomma, hdepth'⟩
    · omega
    · exact hsep v (by omega) (by omega) hcomma hdepth'
  · exact hnone (p + 1) (by omega) hpk hequals hdepth

theorem StartsElement.clear (hs : scan source = .ok s) {o c i : Nat} (hoc : s.closer? o = some c)
    (hi : s.StartsElement o i) (hic : i ≤ c) : s.Clear o i := by
  rcases hi with rfl | ⟨v, rfl, _, hcomma, hdepth⟩
  · exact s.clear_succ o
  · exact fun a ha => not_surrounds_succ hs (clear_of_depth hs hoc hic hdepth a ha) hcomma rfl

theorem mem_objectMarks_cases {i stop : Nat} {m : Mark} (hm : m ∈ s.objectMarks i stop) :
    (i < stop ∧ i < s.tokens.size) ∧ (m = .name i ∨
      i < s.elementTarget true i ∧ (m ∈ s.targetMarks (s.elementTarget true i) stop ∨
        m ∈ s.objectMarks (s.nextElement (s.elementTarget true i) stop) stop) ∨
      m ∈ s.objectMarks (s.skipToComma (s.afterKey i) stop + 1) stop) := by
  have hkey := s.lt_afterKey i
  unfold objectMarks at hm
  split at hm
  · rename_i hlt
    refine ⟨hlt, ?_⟩
    unfold elementTarget
    dsimp only at hm
    split at hm
    · rename_i hrest
      rw [if_pos hrest]
      exact .inr (.inl ⟨Nat.lt_succ_self i, List.mem_append.1 hm⟩)
    · rename_i hrest
      rw [if_neg hrest]
      split at hm
      · rename_i hcolon
        rw [if_pos (by simpa using hcolon.2)]
        exact .inr (.inl ⟨by omega, List.mem_append.1 hm⟩)
      · rcases List.mem_append.1 hm with hm | hm
        · split at hm
          · exact .inl (List.mem_singleton.1 hm)
          · cases hm
        · exact .inr (.inr hm)
  · cases hm

mutual

theorem bounds_of_named_target (hs : scan source = .ok s) {o i stop k : Nat} {m : Mark}
    (hclose : s.closer? o = some stop) (hoi : o < i) (hm : m ∈ s.targetMarks i stop) (hk : m.named? = some k) :
    i ≤ k ∧ k < stop ∧ ∀ q, i ≤ q → q < k → s.isAt q .equals → s.depthAt q ≠ s.depthAt o + 1 := by
  unfold targetMarks at hm
  split at hm
  · rename_i hlt
    have hgroup {j : Nat} (hj : s.closer? i = some j) {kind : Kind} (hkind : s.isAt i kind) (hne : kind ≠ .equals)
        (hbounds : i + 1 ≤ k ∧ k < j) :
        i ≤ k ∧ k < stop ∧ ∀ q, i ≤ q → q < k → s.isAt q .equals → s.depthAt q ≠ s.depthAt o + 1 := by
      have hjs := (balanced_of_scan hs).nested o stop i j hclose hj hoi hlt.1
      have hlow := depthAt_lt_of_closer? hs hclose hoi hlt.1
      refine ⟨by omega, by omega, fun q hiq hqk hequals => ?_⟩
      rcases Nat.lt_or_eq_of_le hiq with hiq | rfl
      · have := depthAt_lt_of_closer? hs hj hiq (by omega)
        omega
      · exact absurd (kind_eq_of_isAt hkind hequals) hne
    split at hm
    · rename_i hkind
      obtain ⟨hik, hks, hnone⟩ := bounds_of_named_target hs hclose (by omega) hm hk
      refine ⟨by omega, hks, fun q hiq hqk hequals => ?_⟩
      rcases Nat.lt_or_eq_of_le hiq with hiq | rfl
      · exact hnone q hiq hqk hequals
      · cases kind_eq_of_isAt (decide_eq_true hkind) hequals
    · cases List.mem_singleton.1 hm
      cases hk
      exact ⟨Nat.le_refl _, hlt.1, fun q hiq hqk => by omega⟩
    · rename_i hkind
      split at hm
      · rename_i j hj
        rcases List.mem_cons.1 hm with rfl | hm
        · cases hk
        · exact hgroup hj (decide_eq_true hkind) nofun (bounds_of_named_object hs hj (Nat.lt_succ_self i) hm hk)
      · cases hm
    · rename_i hkind
      split at hm
      · rename_i j hj
        exact hgroup hj (decide_eq_true hkind) nofun (bounds_of_named_list hs hj (Nat.lt_succ_self i) hm hk)
      · cases hm
    · cases hm
  · cases hm
termination_by 2 * (s.tokens.size - i)

theorem bounds_of_named_list (hs : scan source = .ok s) {o i stop k : Nat} {m : Mark}
    (hclose : s.closer? o = some stop) (hoi : o < i) (hm : m ∈ s.listMarks i stop) (hk : m.named? = some k) :
    i ≤ k ∧ k < stop := by
  unfold listMarks at hm
  split at hm
  · rename_i hlt
    have hnext := s.lt_nextElement (Nat.le_of_lt hlt.1)
    rcases List.mem_append.1 hm with hm | hm
    · obtain ⟨hik, hks, _⟩ := bounds_of_named_target hs hclose hoi hm hk
      exact ⟨hik, hks⟩
    · obtain ⟨hik, hks⟩ := bounds_of_named_list hs hclose (by omega) hm hk
      exact ⟨by omega, hks⟩
  · cases hm
termination_by 2 * (s.tokens.size - i) + 1

theorem bounds_of_named_object (hs : scan source = .ok s) {o i stop k : Nat} {m : Mark}
    (hclose : s.closer? o = some stop) (hoi : o < i) (hm : m ∈ s.objectMarks i stop) (hk : m.named? = some k) :
    i ≤ k ∧ k < stop := by
  obtain ⟨hlt, rfl | ⟨hx, hm | hm⟩ | hm⟩ := mem_objectMarks_cases hm
  · cases hk
    exact ⟨Nat.le_refl _, hlt.1⟩
  · obtain ⟨hik, hks, _⟩ := bounds_of_named_target hs hclose (by omega) hm hk
    exact ⟨by omega, hks⟩
  · have hnext : i < s.nextElement (s.elementTarget true i) stop := by
      have := s.le_afterTarget (s.elementTarget true i) stop
      have := s.min_le_skipToComma (s.afterTarget (s.elementTarget true i) stop) stop
      unfold nextElement
      omega
    obtain ⟨hik, hks⟩ := bounds_of_named_object hs hclose (by omega) hm hk
    exact ⟨by omega, hks⟩
  · have hkey := s.lt_afterKey i
    have hmin := s.min_le_skipToComma (s.afterKey i) stop
    obtain ⟨hik, hks⟩ := bounds_of_named_object hs hclose (by omega) hm hk
    exact ⟨by omega, hks⟩
termination_by 2 * (s.tokens.size - i) + 1

end

theorem StartsElement.lt {o i : Nat} (hi : s.StartsElement o i) : o < i := by
  rcases hi with rfl | ⟨v, rfl, hov, _⟩ <;> omega

theorem not_surrounds_afterKey (hs : scan source = .ok s) {a i : Nat} (hia : i < a) :
    ¬ s.Surrounds a (s.afterKey i) := by
  unfold afterKey
  split
  · exact not_surrounds_skip hs fun ⟨_, _, hai, _⟩ => by omega
  · rintro ⟨_, _, hai, _⟩
    omega

theorem not_surrounds_elementTarget (hs : scan source = .ok s) {a i : Nat} (hia : i < a) :
    ¬ s.Surrounds a (s.elementTarget true i) := by
  unfold elementTarget
  split
  · rintro ⟨_, _, hai, _⟩
    omega
  · split
    · rename_i hcolon
      exact not_surrounds_succ hs (not_surrounds_afterKey hs hia) (by simpa using hcolon) rfl
    · rintro ⟨_, _, hai, _⟩
      omega

section List

variable (hs : scan source = .ok s) {o c : Nat} (hoc : s.closer? o = some c)
include hs hoc

theorem depthAt_ne_of_lt_skip {i q : Nat} (hoi : o < i) (hic : i < c) (hiq : i < q) (hq : q < s.skip i)
    (hequals : s.isAt q .equals) : s.depthAt q ≠ s.depthAt o + 1 := by
  have hlow := depthAt_lt_of_closer? hs hoc hoi hic
  unfold skip at hq
  split at hq
  · rename_i j hj
    rcases Nat.lt_or_eq_of_le (Nat.le_of_lt_succ hq) with hqj | rfl
    · have := depthAt_lt_of_closer? hs hj hiq hqj
      omega
    · rw [not_isAt_closer hs hj rfl] at hequals
      cases hequals
  · omega

theorem depthAt_ne_of_lt_elementTarget {i q : Nat} (hoi : o < i) (hic : i < c) (hiq : i < q)
    (hq : q < s.elementTarget true i) (hequals : s.isAt q .equals) : s.depthAt q ≠ s.depthAt o + 1 := by
  unfold elementTarget at hq
  split at hq
  · omega
  · split at hq
    · rename_i hcolon
      rcases Nat.lt_or_eq_of_le (Nat.le_of_lt_succ hq) with hq | rfl
      · unfold afterKey at hq
        split at hq
        · exact depthAt_ne_of_lt_skip hs hoc hoi hic hiq hq hequals
        · omega
      · cases kind_eq_of_isAt (by simpa using hcolon) hequals
    · omega

theorem StartsElement.clear_of_skip_le {e k : Nat} (he : s.StartsElement o e) (hec : e ≤ c) (hek : s.skip e ≤ k)
    (hafter : ∀ a, s.skip e ≤ a → ¬ s.Surrounds a k) : s.Clear o k := by
  have hlt := s.lt_skip e
  rintro a hoa ⟨b, hab, hak, hkb⟩
  rcases Nat.lt_trichotomy a e with hae | rfl | hea
  · exact he.clear hs hoc hec a hoa ⟨b, hab, hae, by omega⟩
  · rw [skip, hab] at hek
    dsimp only at hek
    omega
  · by_cases has : a < s.skip e
    · have := lt_skip_of_closer? hs hab hea has
      omega
    · exact hafter a (Nat.le_of_not_lt has) ⟨b, hab, hak, hkb⟩

variable (hstray : ∀ k, o < k → k < c → ¬ s.StrayComma o k)
include hstray

theorem startsElement_succ {k : Nat} (hok : o < k) (hkc : k < c) (hcomma : s.isAt k .comma) (hclear : s.Clear o k) :
    s.StartsElement o (k + 1) :=
  .inr ⟨k, rfl, hok, hcomma, depth_of_not_stray hs hoc hok hkc hcomma hclear (hstray k hok hkc)⟩

theorem exists_start {e i x : Nat} (he : s.StartsElement o e) (hei : e ≤ i) (hie : i < s.skip e) (hic : i < c)
    (hix : i < x) (hx : ∀ a, i < a → ¬ s.Surrounds a x) (hlt : s.skipToComma x c < c) :
    ∃ e', s.StartsElement o e' ∧ e' ≤ s.skipToComma x c + 1 ∧ s.skipToComma x c + 1 < s.skip e' := by
  have hcomma := isAt_skipToComma hlt
  have hmin := s.min_le_skipToComma x c
  by_cases hin : s.skipToComma x c + 1 < s.skip e
  · exact ⟨e, he, by omega, hin⟩
  · have hpast : s.skip e ≤ s.skipToComma x c := by
      refine Nat.le_of_lt_succ (Nat.lt_of_le_of_ne (Nat.le_of_not_lt hin) fun heq => ?_)
      unfold skip at heq
      split at heq
      · rename_i j hj
        rw [← Nat.succ.inj heq, not_isAt_closer hs hj rfl] at hcomma
        cases hcomma
      · omega
    refine ⟨_, startsElement_succ hs hoc hstray ?_ hlt hcomma ?_, Nat.le_refl _, s.lt_skip _⟩
    · have := he.lt
      omega
    · refine he.clear_of_skip_le hs hoc (by omega) hpast fun a ha => ?_
      exact not_surrounds_skipToComma hs (hx a (by omega)) hlt

theorem not_inDefault_of_mem_listMarks {i k : Nat} {m : Mark} (hi : s.StartsElement o i) (hm : m ∈ s.listMarks i c)
    (hk : m.named? = some k) : ¬ s.InDefault o k := by
  have hoi := hi.lt
  unfold listMarks at hm
  split at hm
  · rename_i hlt
    rcases List.mem_append.1 hm with hm | hm
    · obtain ⟨hik, _, hnone⟩ := bounds_of_named_target hs hoc hoi hm hk
      exact hi.not_inDefault hik fun q hiq => hnone q (Nat.le_of_lt hiq)
    · have hnext := s.lt_nextElement (Nat.le_of_lt hlt.1)
      have hbounds := bounds_of_named_list hs hoc (by omega) hm hk
      unfold nextElement at hm hnext hbounds
      have hafter := s.le_afterTarget i c
      have hmin := s.min_le_skipToComma (s.afterTarget i c) c
      refine not_inDefault_of_mem_listMarks (startsElement_succ hs hoc hstray ?_ ?_ ?_ fun a ha => ?_) hm hk
      · omega
      · omega
      · exact isAt_skipToComma (by omega)
      · refine not_surrounds_skipToComma hs (not_surrounds_afterTarget hs ?_ c) (by omega)
        exact hi.clear hs hoc (Nat.le_of_lt hlt.1) a ha
  · cases hm
termination_by c - i

theorem not_inDefault_of_mem_objectMarks {e i k : Nat} {m : Mark} (he : s.StartsElement o e) (hei : e ≤ i)
    (hie : i < s.skip e) (hm : m ∈ s.objectMarks i c) (hk : m.named? = some k) : ¬ s.InDefault o k := by
  have hoe := he.lt
  -- The walk may come to stand inside the brackets with which an element begins, so the induction keeps that element.
  have hrest {x : Nat} (hix : i < x) (hic : i < c) (hx : ∀ a, i < a → ¬ s.Surrounds a x)
      (hm : m ∈ s.objectMarks (s.skipToComma x c + 1) c) : ¬ s.InDefault o k := by
    have hmin := s.min_le_skipToComma x c
    have hbounds := bounds_of_named_object hs hoc (by omega) hm hk
    obtain ⟨e', he', hle, hlt⟩ := exists_start hs hoc hstray he hei hie hic hix hx (by omega)
    exact not_inDefault_of_mem_objectMarks he' hle hlt hm hk
  obtain ⟨⟨hic, _⟩, rfl | ⟨hx, hm | hm⟩ | hm⟩ := mem_objectMarks_cases hm
  · cases hk
    exact he.not_inDefault hei fun q heq hqi => depthAt_ne_of_lt_skip hs hoc hoe (by omega) heq (by omega)
  · obtain ⟨hxk, _, hnone⟩ := bounds_of_named_target hs hoc (by omega) hm hk
    refine he.not_inDefault (by omega) fun q heq hqk hequals => ?_
    by_cases hqi : q ≤ i
    · exact depthAt_ne_of_lt_skip hs hoc hoe (by omega) heq (by omega) hequals
    · by_cases hqx : q < s.elementTarget true i
      · exact depthAt_ne_of_lt_elementTarget hs hoc (by omega) hic (by omega) hqx hequals
      · exact hnone q (by omega) hqk hequals
  · have hafter := s.le_afterTarget (s.elementTarget true i) c
    refine hrest (by omega) hic (fun a ha => ?_) hm
    exact not_surrounds_afterTarget hs (not_surrounds_elementTarget hs ha) c
  · exact hrest (s.lt_afterKey i) hic (fun a ha => not_surrounds_afterKey hs ha) hm
termination_by c - i

end List

/-- The walk over the elements of a list stops at the next separator exactly if no stray comma comes before it, and
never inside a bracket of the list. Without stray commas the walks over lists and over object patterns make nothing
in a default value a declaration. -/
theorem elements_separated (hs : scan source = .ok s) {o c : Nat} (hoc : s.closer? o = some c) :
    (∀ i, o < i → i < c → s.depthAt i = s.depthAt o + 1 →
      (s.skipToComma i c = s.commaAtDepth (s.depthAt o + 1) i c ↔
        ∀ k, i ≤ k → k < s.commaAtDepth (s.depthAt o + 1) i c → ¬ s.StrayComma o k) ∧
      (s.skipToComma i c < c → ∀ a, o < a → ¬ s.Surrounds a (s.skipToComma i c))) ∧
    ((∀ k, o < k → k < c → ¬ s.StrayComma o k) →
      ∀ m ∈ s.listMarks (o + 1) c ++ s.objectMarks (o + 1) c, ∀ k, m.named? = some k → ¬ s.InDefault o k) := by
  constructor
  · intro i hoi hic hdepth
    have hclear := clear_of_depth hs hoc hic hdepth
    refine ⟨skipToComma_eq_iff hs hoc hclear hoi (Nat.le_of_lt hic), fun hlt a ha => ?_⟩
    exact not_surrounds_skipToComma hs (hclear a ha) hlt
  · intro hstray m hm k hk
    have hstart : s.StartsElement o (o + 1) := .inl rfl
    rcases List.mem_append.1 hm with hm | hm
    · exact not_inDefault_of_mem_listMarks hs hoc hstray hstart hm hk
    · exact not_inDefault_of_mem_objectMarks hs hoc hstray hstart (Nat.le_refl _) (s.lt_skip _) hm hk

theorem elements_separated_parameters :
    let source := "function f(a = g(1, `$\x7bh(x, y)\x7d`), \x7bb = [2, 3], c\x7d = d) \x7b\x7d".toList
    ∃ s, scan source = .ok s ∧ s.closer? 2 = some 32 ∧ s.depthAt 3 = s.depthAt 2 + 1 ∧ s.skipToComma 3 32 = 18 ∧
      s.InDefault 2 14 ∧ ∀ m ∈ s.listMarks 3 32, m.named? ≠ some 14 := by
  intro source
  obtain ⟨s, hs, h⟩ := exists_ok_of_test (x := scan source) (fun s =>
    s.closer? 2 = some 32 && s.depthAt 3 = s.depthAt 2 + 1 && s.commaAtDepth (s.depthAt 2 + 1) 3 32 = 18 &&
      s.isAt 4 .equals && s.depthAt 4 = s.depthAt 2 + 1 &&
      ((List.range 15).all fun v => !(s.isAt v .comma && s.depthAt v = s.depthAt 2 + 1)) &&
      (List.range 32).all fun k => !(s.isAt k .comma && s.Clear 2 k && s.depthAt k ≠ s.depthAt 2 + 1))
    (by decide +kernel)
  simp only [Bool.and_eq_true, decide_eq_true_eq] at h
  obtain ⟨⟨⟨⟨⟨⟨hclose, hdepth⟩, hcomma⟩, hequals⟩, hlevel⟩, hsep⟩, hstray⟩ := h
  have hstray (k : Nat) (hk : 2 < k) (hkc : k < 32) : ¬ s.StrayComma 2 k := by
    rw [strayComma_iff hs hclose hk hkc]
    rintro ⟨hat, hclear, hne⟩
    simpa [hat, hclear, hne] using List.all_eq_true.1 hstray k (List.mem_range.2 hkc)
  have hdefault : s.InDefault 2 14 := by
    refine ⟨3, by decide, by decide, hequals, hlevel, fun v _ hv hat heq => ?_⟩
    simpa [hat, heq] using List.all_eq_true.1 hsep v (List.mem_range.2 (by omega))
  obtain ⟨hwalk, hmarks⟩ := elements_separated hs hclose
  refine ⟨s, hs, hclose, hdepth, ?_, hdefault, fun m hm hk => ?_⟩
  · rw [(hwalk 3 (by decide) (by decide) hdepth).1.2 fun k hk hlt => hstray k (by omega) (by omega), hcomma]
  · exact hmarks hstray m (List.mem_append_left _ hm) 14 hk hdefault

/-- The comma between two values of a template ends the walk over a default value, and the value behind it becomes a
declaration. -/
theorem elements_unseparated :
    let source := "function f(a = `$\x7bx, y\x7d`) \x7b\x7d".toList
    ∃ s, scan source = .ok s ∧ s.closer? 2 = some 10 ∧ s.depthAt 3 = s.depthAt 2 + 1 ∧ s.skipToComma 3 10 = 7 ∧
      s.depthAt 7 = s.depthAt 2 + 2 ∧ s.commaAtDepth (s.depthAt 2 + 1) 3 10 = 10 ∧ s.InDefault 2 8 ∧
      s.role? 8 = some .declaration := by
  intro source
  obtain ⟨s, hs, h⟩ := exists_ok_of_test (x := scan source) (fun s =>
    s.closer? 2 = some 10 && s.depthAt 3 = s.depthAt 2 + 1 && s.skipToComma 3 10 = 7 && s.depthAt 7 = s.depthAt 2 + 2 &&
      s.commaAtDepth (s.depthAt 2 + 1) 3 10 = 10 && s.isAt 4 .equals && s.depthAt 4 = s.depthAt 2 + 1 &&
      ((List.range 9).all fun v => !(s.isAt v .comma && s.depthAt v = s.depthAt 2 + 1)) &&
      s.role? 8 = some .declaration) (by decide +kernel)
  simp only [Bool.and_eq_true, decide_eq_true_eq] at h
  obtain ⟨⟨⟨⟨⟨⟨⟨⟨hclose, hdepth⟩, hwalk⟩, hdeeper⟩, hcomma⟩, hequals⟩, hlevel⟩, hsep⟩, hrole⟩ := h
  refine ⟨s, hs, hclose, hdepth, hwalk, hdeeper, hcomma, ⟨3, by decide, by decide, hequals, hlevel, ?_⟩, hrole⟩
  intro v _ hv hat heq
  simpa [hat, heq] using List.all_eq_true.1 hsep v (List.mem_range.2 (by omega))

end Stream

end ModuleLowering
