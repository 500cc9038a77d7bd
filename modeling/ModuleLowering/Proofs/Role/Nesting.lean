import ModuleLowering.Proofs.Role.Groups
import ModuleLowering.Proofs.Role.Walks
import ModuleLowering.Proofs.Scan.Depth

namespace ModuleLowering

def Kind.closer? : Kind → Option Kind
  | openParen => some closeParen
  | openBracket => some closeBracket
  | openBrace => some closeBrace
  | _ => none

theorem Region.Opens.closer? {region : Region} {a b : Kind} (h : region.Opens a)
    (hcloser : region.closer? = some b) : a.closer? = some b := by
  cases region with
  | topLevel | templateExpr | jsxTag | jsxChildren => cases hcloser
  | _ => obtain rfl := h; exact hcloser

namespace Bracketed

variable {tokens : Array Token} (h : Bracketed tokens [])
include h

theorem exists_mates {i : Nat} {a : Token} (ha : tokens[i]? = some a) (hk : a.kind.isOpener) :
    ∃ j, Mates tokens i j := by
  cases hp : a.pair with
  | none =>
    obtain ⟨_, _, hmem⟩ := h.paired i a ha hk hp
    cases hmem
  | some j =>
    rcases h.mates i a j ha hp with hmates | hmates
    · exact ⟨j, hmates⟩
    · rw [Kind.isOpener_of_isCloser (hmates.isCloser ha)] at hk
      cases hk

theorem exists_mates_of_isCloser (hpaired : ClosersPaired tokens) {j : Nat} {b : Token}
    (hb : tokens[j]? = some b) (hk : b.kind.isCloser) : ∃ i, Mates tokens i j := by
  obtain ⟨i, hi⟩ := hpaired j b hb hk
  rcases h.mates j b i hb hi with hmates | hmates
  · have hopener := hmates.isOpener hb
    rw [Kind.isOpener_of_isCloser hk] at hopener
    cases hopener
  · exact ⟨i, hmates⟩

theorem pair_eq_none {i : Nat} {a : Token} (ha : tokens[i]? = some a) (ho : a.kind.isOpener = false)
    (hc : a.kind.isCloser = false) : a.pair = none := by
  cases hp : a.pair with
  | none => rfl
  | some j =>
    rcases h.mates i a j ha hp with hmates | hmates
    · rw [hmates.isOpener ha] at ho
      cases ho
    · rw [hmates.isCloser ha] at hc
      cases hc

end Bracketed

namespace Stream

theorem closer?_lt {r : Stream} (h : Bracketed r.tokens []) {i j k l : Nat} (hij : r.closer? i = some j)
    (hkl : r.closer? k = some l) (hik : i < k) (hkj : k < j) : l < j := by
  have hmates := mates_of_closer? h hij
  have hmates' := mates_of_closer? h hkl
  obtain ⟨a, b, _, ha, hb, _, _, _, _, _, _, hab, _⟩ := hmates.brackets
  obtain ⟨c, d, _, hc, hd, _, _, _, _, _, _, hcd, _⟩ := hmates'.brackets
  have hinner := hmates.inner k a c ha hik hkj hc
  rcases Nat.lt_trichotomy l j with hlt | heq | hlt
  · exact hlt
  · exact absurd heq (closer?_disjoint h hkl hij (by omega)).1
  · have := hmates'.inner j c b hc hkj hlt hb
    omega

def Unstraddled (r : Stream) (i stop : Nat) : Prop :=
  ∀ a b, r.closer? a = some b → i ≤ b → b < stop → i ≤ a

theorem unstraddled_inside {r : Stream} (h : Bracketed r.tokens []) {i j : Nat} (hij : r.closer? i = some j) :
    r.Unstraddled (i + 1) j := by
  intro a b hab hib hbj
  by_cases heq : a = i
  · subst heq
    rw [hij] at hab
    cases hab
    omega
  · have := lt_of_closer? hab
    by_cases hlt : a < i
    · have := closer?_lt h hab hij hlt (by omega)
      omega
    · omega

theorem Unstraddled.step {r : Stream} (h : Bracketed r.tokens []) {i stop : Nat} (hi : r.Unstraddled i stop) :
    r.Unstraddled (r.skip i) stop := by
  intro a b hab hib hbs
  have hskip := r.lt_skip i
  have hle := hi a b hab (by omega) hbs
  unfold skip at hib ⊢
  cases hc : r.closer? i with
  | none =>
    rw [hc] at hib
    dsimp only at hib ⊢
    have : a ≠ i := by
      rintro rfl
      rw [hc] at hab
      cases hab
    omega
  | some j =>
    rw [hc] at hib
    dsimp only at hib ⊢
    have : a ≠ i := by
      rintro rfl
      rw [hc] at hab
      cases hab
      omega
    have hne := (closer?_disjoint h hc hab (Ne.symm this))
    by_cases hlt : a < j
    · have := closer?_lt h hc hab (by omega) hlt
      omega
    · omega

theorem mem_members_iff {r : Stream} (h : Bracketed r.tokens []) {i stop : Nat} (hi : r.Unstraddled i stop)
    {a b : Nat} (hab : r.closer? a = some b) (hb : b < stop) :
    a ∈ r.members i stop ↔ b ∈ r.members i stop := by
  have hlt := lt_of_closer? hab
  fun_induction members r i stop with
  | case1 i his j hj ih =>
    have hrest := hi.step h
    rw [skip, hj] at hrest
    by_cases hai : a = i
    · subst hai
      rw [hj] at hab
      cases hab
      simp
    · obtain ⟨hjb, hib, hja⟩ := closer?_disjoint h hj hab (Ne.symm hai)
      simp only [List.mem_cons, hai, Ne.symm hja, Ne.symm hib, Ne.symm hjb, false_or]
      exact ih hrest
  | case2 i his hnone ih =>
    have hrest := hi.step h
    rw [skip, hnone] at hrest
    have hai : a ≠ i := by
      rintro rfl
      rw [hab] at hnone
      cases hnone
    have hbi : b ≠ i := by
      rintro rfl
      have := hi a b hab (Nat.le_refl _) hb
      omega
    simp only [List.mem_cons, hai, hbi, false_or]
    exact ih hrest
  | case3 => simp

theorem bounds_of_mem_members {r : Stream} {i stop : Nat}
    (hinside : ∀ a b, r.closer? a = some b → i ≤ a → a < stop → b < stop) {k : Nat}
    (hk : k ∈ r.members i stop) : i ≤ k ∧ k < stop := by
  fun_induction members r i stop with
  | case1 i his j hj ih =>
    have hlt := lt_of_closer? hj
    have hjs := hinside i j hj (Nat.le_refl _) his
    rcases List.mem_cons.1 hk with rfl | hk
    · omega
    · rcases List.mem_cons.1 hk with rfl | hk
      · omega
      · have := ih (fun a b hab hia => hinside a b hab (by omega)) hk
        omega
  | case2 i his _ ih =>
    rcases List.mem_cons.1 hk with rfl | hk
    · omega
    · have := ih (fun a b hab hia => hinside a b hab (by omega)) hk
      omega
  | case3 => cases hk

theorem mem_members_inside_iff {r : Stream} (h : Bracketed r.tokens []) {i j : Nat} (hij : r.closer? i = some j)
    {a b : Nat} (hab : r.closer? a = some b) : a ∈ r.members (i + 1) j ↔ b ∈ r.members (i + 1) j := by
  by_cases hb : b < j
  · exact mem_members_iff h (unstraddled_inside h hij) hab hb
  · have hbounds {k : Nat} (hk : k ∈ r.members (i + 1) j) : i + 1 ≤ k ∧ k < j :=
      bounds_of_mem_members (fun a b hab hia haj => closer?_lt h hij hab hia haj) hk
    constructor
    · intro ha
      have := hbounds ha
      exact absurd (closer?_lt h hij hab (by omega) (by omega)) hb
    · intro hmem
      exact absurd (hbounds hmem).2 hb

def context? (s : Stream) (i : Nat) : Option Region := s.tokens[i]?.map (·.context)

def asPattern (region : Region) : Region := if region = .object then .pattern else region

theorem context?_update {s : Stream} {f : Token → Token} {g : Region → Region}
    (hf : ∀ t, (f t).context = g t.context) (i k : Nat) :
    (s.update i f).context? k = if i = k then (s.context? k).map g else s.context? k := by
  unfold context? update
  rw [Array.getElem?_modify]
  split
  · rename_i heq
    subst heq
    cases s.tokens[i]? <;> simp [hf]
  · rfl

theorem context?_foldl_enterPattern (is : List Nat) (s : Stream) (k : Nat) :
    (is.foldl enterPattern s).context? k = if k ∈ is then (s.context? k).map asPattern else s.context? k := by
  have hidem : asPattern ∘ asPattern = asPattern := by
    funext region
    cases region <;> rfl
  induction is generalizing s with
  | nil => simp
  | cons i is ih =>
    have henter : (s.enterPattern i).context? k =
        if i = k then (s.context? k).map asPattern else s.context? k := by
      refine context?_update (fun t => ?_) i k
      split
      · rename_i hobject
        rw [asPattern, if_pos hobject]
      · rename_i hnot
        rw [asPattern, if_neg hnot]
    rw [List.foldl_cons, ih, henter]
    by_cases heq : i = k
    · subst heq
      by_cases hmem : i ∈ is <;> simp [hmem, hidem]
    · have hne : k ≠ i := Ne.symm heq
      simp [heq, hne]

def Aligned (s : Stream) : Prop := ∀ i j, s.closer? i = some j → s.context? i = s.context? j

theorem aligned_of_bracketed {r : Stream} (h : Bracketed r.tokens []) : r.Aligned := by
  intro i j hij
  obtain ⟨a, b, _, ha, hb, _, _, _, _, _, _, _, hcontext⟩ := (mates_of_closer? h hij).brackets
  rw [context?, context?, ha, hb, Option.map_some, Option.map_some, hcontext]

theorem aligned_pattern {r s : Stream} (h : Bracketed r.tokens []) (ho : s.outline = r.outline) (hs : s.Aligned)
    {a b : Nat} (hab : s.PatternAt a b) : (s.mark (.pattern a b)).Aligned := by
  have hr := patternAt_outline ho hab
  have hkeep (k : Nat) : ((s.setGroup a .pattern).setGroup b .pattern).context? k = s.context? k := by
    have hgroup (s : Stream) (i : Nat) : (s.setGroup i .pattern).context? k = s.context? k := by
      refine (context?_update (f := fun t => { t with group := some .pattern }) (g := id) (fun _ => rfl) i k).trans ?_
      simp
    rw [hgroup, hgroup]
  intro i j hij
  rw [closer?_outline (s.outline_mark _)] at hij
  have hmem : i ∈ s.members (a + 1) b ↔ j ∈ s.members (a + 1) b := by
    rw [(Congruent.of_outline ho).members_eq]
    exact mem_members_inside_iff h hr.closer (by rw [← closer?_outline ho]; exact hij)
  unfold mark
  rw [context?_foldl_enterPattern, context?_foldl_enterPattern, hkeep, hkeep, hs i j hij]
  simp only [hmem]

theorem aligned_of_scan {source : List Char} {s : Stream} (h : scan source = .ok s) : s.Aligned := by
  obtain ⟨r, hr, rfl⟩ := map_eq_ok_iff.1 h
  have hb := bracketed_of_read hr
  refine kept_by_roles ?_ (fun s a b ho hab hs => aligned_pattern hb ho hs hab) (aligned_of_bracketed hb)
  intro s i f hf hs a b hab
  have hcontext (k : Nat) : (s.update i f).context? k = s.context? k := by
    refine (context?_update (g := id) (fun t => ?_) i k).trans (by simp)
    obtain ⟨_, ht⟩ := hf t
    rw [ht]
    rfl
  rw [closer?_outline (s.outline_update i fun t => ?_)] at hab
  · rw [hcontext, hcontext]
    exact hs a b hab
  · obtain ⟨_, ht⟩ := hf t
    rw [ht]
    rfl

def Surrounds (s : Stream) (i k : Nat) : Prop := ∃ j, s.closer? i = some j ∧ i < k ∧ k < j

def Interpolates (s : Stream) (c k : Nat) : Prop :=
  ∃ d, Substitution (levels s.tokens) c d ∧ c < k ∧ k < d

theorem encloses_iff {r : Stream} (hb : Bracketed r.tokens []) (hn : Nested (levels r.tokens) []) {i k : Nat} :
    (∃ m, Encloses (levels r.tokens) m i k) ↔ r.Surrounds i k ∨ r.Interpolates i k := by
  constructor
  · rintro ⟨m, henc⟩
    obtain ⟨x, hx, hopener | hchunk⟩ := henc.opener
    · obtain ⟨u, hu, rfl, rfl⟩ := exists_of_levels hx
      obtain ⟨j, hmates⟩ := hb.exists_mates hu hopener
      refine .inl ⟨j, hmates.closer?, henc.lt, ?_⟩
      obtain ⟨a, b, _, ha, hj, _, _, _, _, _, _, hdepth, _⟩ := hmates.brackets
      rw [hu] at ha
      cases ha
      apply Nat.lt_of_not_le
      intro hjk
      have := henc.deeper j b.kind b.depth hmates.lt hjk (levels_of_getElem? hj)
      omega
    · obtain ⟨d, hsub⟩ := hn.exists_substitution hx hchunk
      refine .inr ⟨d, hsub, henc.lt, ?_⟩
      obtain ⟨_, _, p, hc, _, hd, _⟩ := hsub.chunks
      rw [hx] at hc
      cases hc
      apply Nat.lt_of_not_le
      intro hdk
      exact Nat.lt_irrefl _ (henc.deeper d _ _ hsub.lt hdk hd)
  · rintro (⟨j, hij, hik, hkj⟩ | ⟨d, hsub, hik, hkd⟩)
    · have hmates := mates_of_closer? hb hij
      obtain ⟨a, _, _, ha, _⟩ := hmates.brackets
      refine ⟨a.depth, hik, ⟨a.kind, levels_of_getElem? ha, .inl (hmates.isOpener ha)⟩, ?_⟩
      intro l y p hil hlk hl
      obtain ⟨u, hu, _, rfl⟩ := exists_of_levels hl
      exact hmates.inner l a u ha hil (by omega) hu
    · obtain ⟨a, _, m, hc, hopens, _, _, hinner⟩ := hsub.chunks
      refine ⟨m, hik, ⟨a, hc, .inr hopens⟩, ?_⟩
      intro l y p hil hlk hl
      exact hinner l y p hil (by omega) hl

theorem depth_eq_of_nested {r : Stream} (hb : Bracketed r.tokens []) (hn : Nested (levels r.tokens) [])
    {k n : Nat} {x : Kind} (hk : (levels r.tokens)[k]? = some (x, n)) :
    n = {i | r.Surrounds i k}.ncard + {c | r.Interpolates c k}.ncard := by
  have hfinite : {i | r.Surrounds i k}.Finite :=
    (Finset.range k).finite_toSet.subset fun i ⟨_, _, hik, _⟩ => by simpa using hik
  have hfinite' : {c | r.Interpolates c k}.Finite :=
    (Finset.range k).finite_toSet.subset fun c ⟨_, _, hck, _⟩ => by simpa using hck
  have hdisjoint : Disjoint {i | r.Surrounds i k} {c | r.Interpolates c k} := by
    rw [Set.disjoint_left]
    rintro i ⟨j, hij, _⟩ ⟨d, hsub, _⟩
    obtain ⟨a, _, _, ha, _⟩ := (mates_of_closer? hb hij).brackets
    obtain ⟨b, _, _, hc, hchunk, _⟩ := hsub.chunks
    rw [levels_of_getElem? ha] at hc
    cases hc
    have hopener := (mates_of_closer? hb hij).isOpener ha
    revert hopener hchunk
    cases a.kind <;> simp [Kind.isOpener, Kind.opensSubstitution]
  rw [← Set.ncard_union_eq hdisjoint hfinite hfinite', ← hn.ncard_encloses hk]
  congr 1
  ext i
  exact encloses_iff hb hn

theorem levels_outline {r s : Stream} (ho : s.outline = r.outline) : levels s.tokens = levels r.tokens := by
  rw [levels, levels, ← Array.toList_map, ← Array.toList_map]
  exact congrArg Array.toList (map_eq_of_outline ho Token.level fun _ => rfl)

theorem same_of_outline {t u : Token} (h : t.outline = u.outline) :
    t.kind = u.kind ∧ t.pair = u.pair ∧ t.depth = u.depth :=
  ⟨congrArg (·.kind) h, congrArg (·.pair) h, congrArg (·.depth) h⟩

section

variable {r s : Stream} (ho : s.outline = r.outline)
include ho

theorem surrounds_outline (i k : Nat) : s.Surrounds i k ↔ r.Surrounds i k := by
  rw [Surrounds, Surrounds, closer?_outline ho]

theorem interpolates_outline (c k : Nat) : s.Interpolates c k ↔ r.Interpolates c k := by
  rw [Interpolates, Interpolates, levels_outline ho]

theorem exists_mates_outline (hb : Bracketed r.tokens []) {i : Nat} {a : Token} (ha : s.tokens[i]? = some a)
    (hk : a.kind.isOpener) : ∃ j, Mates r.tokens i j ∧ s.closer? i = some j := by
  obtain ⟨u, hu, hua⟩ := exists_of_outline ho ha
  obtain ⟨j, hmates⟩ := hb.exists_mates hu (by rwa [(same_of_outline hua).1])
  exact ⟨j, hmates, (closer?_outline ho i).trans hmates.closer?⟩

end

theorem exists_partner_of_scan {source : List Char} {s : Stream} (h : scan source = .ok s) {i : Nat} {a : Token}
    (ha : s.tokens[i]? = some a) (hk : a.kind.isOpener) : ∃ (j : Nat) (b : Token), i < j ∧
      s.tokens[j]? = some b ∧ a.kind.closer? = some b.kind ∧ a.pair = some j ∧ b.pair = some i ∧
      a.depth = b.depth ∧ a.context = b.context ∧ a.group = b.group := by
  obtain ⟨r, hr, ho⟩ := outline_of_scan h
  obtain ⟨j, hmates, hij⟩ := exists_mates_outline ho (bracketed_of_read hr) ha hk
  obtain ⟨u, v, _, hu, hv, hopens, hcloser, _, _, hup, hvp, hdepth, _⟩ := hmates.brackets
  obtain ⟨u', hu', hua⟩ := exists_of_outline ho ha
  obtain ⟨b, hb, hbv⟩ := exists_of_outline ho.symm hv
  rw [hu] at hu'
  cases hu'
  obtain ⟨hkind, hpair, hdepth'⟩ := same_of_outline hua
  obtain ⟨hkind', hpair', hdepth''⟩ := same_of_outline hbv
  have hcontext := aligned_of_scan h i j hij
  rw [context?, context?, ha, hb] at hcontext
  refine ⟨j, b, hmates.lt, hb, ?_, hpair.symm.trans hup, hpair'.trans hvp, ?_, Option.some.inj hcontext,
    group_eq_of_closer? h hij ha hb⟩
  · rw [← hkind, hkind']
    exact hopens.closer? hcloser
  · rw [← hdepth', hdepth'', hdepth]

theorem exists_opener_of_scan {source : List Char} {s : Stream} (h : scan source = .ok s) {j : Nat} {b : Token}
    (hj : s.tokens[j]? = some b) (hk : b.kind.isCloser) : ∃ i, b.pair = some i ∧ s.closer? i = some j := by
  obtain ⟨r, hr, ho⟩ := outline_of_scan h
  obtain ⟨v, hv, hvb⟩ := exists_of_outline ho hj
  obtain ⟨hkind, hpair, _⟩ := same_of_outline hvb
  obtain ⟨i, hmates⟩ :=
    (bracketed_of_read hr).exists_mates_of_isCloser (closersPaired_of_read hr) hv (by rwa [hkind])
  obtain ⟨_, w, _, _, hw, _, _, _, _, _, hwp, _⟩ := hmates.brackets
  rw [hv] at hw
  cases hw
  exact ⟨i, hpair.symm.trans hwp, (closer?_outline ho i).trans hmates.closer?⟩

theorem depth_of_scan {source : List Char} {s : Stream} (h : scan source = .ok s) {k : Nat} {t : Token}
    (ht : s.tokens[k]? = some t) :
    t.depth = {i | s.Surrounds i k}.ncard + {c | s.Interpolates c k}.ncard := by
  obtain ⟨r, hr, ho⟩ := outline_of_scan h
  have hk := levels_of_getElem? ht
  rw [levels_outline ho] at hk
  simp only [surrounds_outline ho, interpolates_outline ho]
  exact depth_eq_of_nested (bracketed_of_read hr) (nested_of_read hr) hk

structure Balanced (s : Stream) : Prop where
  opener : ∀ (i : Nat) (a : Token), s.tokens[i]? = some a → a.kind.isOpener → ∃ (j : Nat) (b : Token), i < j ∧
    s.tokens[j]? = some b ∧ a.kind.closer? = some b.kind ∧ a.pair = some j ∧ b.pair = some i ∧
    a.depth = b.depth ∧ a.context = b.context ∧ a.group = b.group
  closer : ∀ (j : Nat) (b : Token), s.tokens[j]? = some b → b.kind.isCloser →
    ∃ i, b.pair = some i ∧ s.closer? i = some j
  unpaired : ∀ t ∈ s.tokens, t.kind.isOpener = false → t.kind.isCloser = false → t.pair = none
  nested : ∀ i j k l, s.closer? i = some j → s.closer? k = some l → i < k → k < j → l < j
  templates : ∀ i, s.isAt i .templateHead → ∃! j, Template (levels s.tokens) i j
  depth : ∀ (k : Nat) (t : Token), s.tokens[k]? = some t →
    t.depth = {i | s.Surrounds i k}.ncard + {c | s.Interpolates c k}.ncard
  skip : ∀ (i : Nat) (a : Token), s.tokens[i]? = some a → a.kind.isOpener →
    ∃ j, a.pair = some j ∧ s.skip i = j + 1

theorem balanced_of_scan {source : List Char} {s : Stream} (h : scan source = .ok s) : s.Balanced := by
  obtain ⟨r, hr, ho⟩ := outline_of_scan h
  have hb := bracketed_of_read hr
  refine ⟨fun _ _ => exists_partner_of_scan h, fun _ _ => exists_opener_of_scan h, ?unpaired, ?nested, ?templates,
    fun _ _ => depth_of_scan h, ?skip⟩
  case unpaired =>
    intro t ht hopener hcloser
    obtain ⟨i, hi⟩ := Array.getElem?_of_mem ht
    obtain ⟨u, hu, hut⟩ := exists_of_outline ho hi
    obtain ⟨hkind, hpair, _⟩ := same_of_outline hut
    rw [← hpair]
    exact hb.pair_eq_none hu (by rwa [hkind]) (by rwa [hkind])
  case nested =>
    intro i j k l hij hkl hik hkj
    rw [closer?_outline ho] at hij hkl
    exact closer?_lt hb hij hkl hik hkj
  case templates =>
    intro i hi
    obtain ⟨t, ht, hk⟩ := Option.map_eq_some_iff.1 (of_decide_eq_true hi)
    have hlevel := levels_of_getElem? ht
    rw [hk, levels_outline ho] at hlevel
    rw [levels_outline ho]
    obtain ⟨j, hj⟩ := (nested_of_read hr).exists_template hlevel rfl
    exact ⟨j, hj, fun _ hj' => hj'.eq hj⟩
  case skip =>
    intro i a ha hk
    obtain ⟨j, _, hij⟩ := exists_mates_outline ho hb ha hk
    obtain ⟨t, ht, hj⟩ := Option.bind_eq_some_iff.1 hij
    rw [ha] at ht
    cases ht
    exact ⟨j, (Option.filter_eq_some_iff.1 hj).1, by rw [Stream.skip, hij]⟩

end Stream

end ModuleLowering
