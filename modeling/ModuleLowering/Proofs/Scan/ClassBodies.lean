import ModuleLowering.Proofs.Role.Nesting
import ModuleLowering.Proofs.Scan.Classes

/-!
Class bodies among the brackets. A body belongs to the class that it takes unless a class of an earlier bracket, which
got no body there, still waits.
-/

namespace ModuleLowering

namespace Stream

variable {s : Stream}

def SameBrackets (s : Stream) (i j : Nat) : Prop :=
  ∀ o, (s.Surrounds o i ∨ s.Interpolates o i) ↔ (s.Surrounds o j ∨ s.Interpolates o j)

theorem encloses_levels_iff {o i : Nat} (hi : i < s.tokens.size) :
    (∃ m, Encloses (levels s.tokens) m o i) ↔
      o < i ∧ (∃ a, s.tokens[o]? = some a ∧ (a.kind.isOpener ∨ a.kind.opensSubstitution)) ∧
      ∀ k, o < k → k ≤ i → s.depthAt o < s.depthAt k := by
  constructor
  · rintro ⟨m, hlt, ⟨x, hlevel, hopens⟩, hdeeper⟩
    obtain ⟨a, ha, rfl, rfl⟩ := exists_of_levels hlevel
    refine ⟨hlt, ⟨a, ha, hopens⟩, fun k hok hki => ?_⟩
    obtain ⟨t, ht⟩ : ∃ t, s.tokens[k]? = some t := ⟨_, Array.getElem?_eq_getElem (Nat.lt_of_le_of_lt hki hi)⟩
    rw [depthAt_eq ha, depthAt_eq ht]
    exact hdeeper k t.kind t.depth hok hki (levels_of_getElem? ht)
  · rintro ⟨hlt, ⟨a, ha, hopens⟩, hdeeper⟩
    refine ⟨a.depth, hlt, ⟨a.kind, levels_of_getElem? ha, hopens⟩, fun k x d hok hki hk => ?_⟩
    obtain ⟨t, ht, _, rfl⟩ := exists_of_levels hk
    have := hdeeper k hok hki
    rwa [depthAt_eq ha, depthAt_eq ht] at this

theorem sameBrackets_iff (hbr : Bracketed s.tokens []) (h : Nested (levels s.tokens) []) {c i : Nat} (hci : c < i)
    (hi : i < s.tokens.size) (hdepth : s.depthAt c = s.depthAt i) :
    s.SameBrackets c i ↔ ∀ k, c < k → k < i → s.depthAt c ≤ s.depthAt k := by
  simp only [SameBrackets, ← encloses_iff hbr h]
  constructor
  · intro hsame k hck hki
    by_contra hlow
    rw [Nat.not_le] at hlow
    obtain ⟨t, ht⟩ : ∃ t, s.tokens[c]? = some t := ⟨_, Array.getElem?_eq_getElem (Nat.lt_trans hci hi)⟩
    rw [depthAt_eq ht] at hlow
    obtain ⟨o, ho⟩ := h.enclosed c t.kind t.depth (levels_of_getElem? ht) _ hlow
    obtain ⟨_, hlevel, _⟩ := ho.opener
    obtain ⟨a, ha, _, hao⟩ := exists_of_levels hlevel
    have hoc := ho.lt
    have := ((encloses_levels_iff hi).1 ((hsame o).1 ⟨_, ho⟩)).2.2 k (by omega) (Nat.le_of_lt hki)
    rw [depthAt_eq ha] at this
    omega
  · intro hdeep o
    rw [encloses_levels_iff (Nat.lt_trans hci hi), encloses_levels_iff hi]
    constructor
    · rintro ⟨hoc, hopens, hdeeper⟩
      refine ⟨Nat.lt_trans hoc hci, hopens, fun k hok hki => ?_⟩
      have hbase := hdeeper c hoc (Nat.le_refl c)
      rcases Nat.lt_or_ge c k with hck | hkc
      · rcases Nat.lt_or_eq_of_le hki with hki | rfl
        · exact Nat.lt_of_lt_of_le hbase (hdeep k hck hki)
        · rwa [← hdepth]
      · exact hdeeper k hok hkc
    · rintro ⟨hoi, ⟨a, ha, hopens⟩, hdeeper⟩
      have hlow := hdeeper i hoi (Nat.le_refl i)
      rcases Nat.lt_trichotomy o c with hoc | rfl | hco
      · exact ⟨hoc, ⟨a, ha, hopens⟩, fun k hok hkc => hdeeper k hok (by omega)⟩
      · omega
      · have := hdeep o hco hoi
        omega

theorem lt_size_of_isClassBody {i : Nat} (h : s.isClassBody i) : i < s.tokens.size := by
  obtain ⟨t, ht, _⟩ := (Option.any_eq_true _ _).1 h
  exact lt_size_of_getElem? ht

def isCodeBrace (s : Stream) (i : Nat) : Bool :=
  s.tokens[i]?.any fun t => t.kind = .openBrace && !t.context.isJsx

theorem lt_size_of_isCodeBrace {i : Nat} (h : s.isCodeBrace i) : i < s.tokens.size := by
  obtain ⟨t, ht, _⟩ := (Option.any_eq_true _ _).1 h
  exact lt_size_of_getElem? ht

structure Precedes (s : Stream) (c i : Nat) : Prop where
  lt : c < i
  depth : s.depthAt c = s.depthAt i
  brackets : s.SameBrackets c i

def Stale (s : Stream) (c : Nat) : Prop := ∃ k, c ∈ s.waitingClasses k ∧ k < s.tokens.size ∧ s.depthAt k < s.depthAt c

theorem Stale.exists_first {c : Nat} (h : s.Stale c) :
    ∃ k, c ∈ s.waitingClasses k ∧ s.depthAt k < s.depthAt c ∧ ∀ j, c < j → j < k → s.depthAt c ≤ s.depthAt j := by
  classical
  obtain ⟨hwaits, hsize, hlow⟩ := Nat.find_spec h
  refine ⟨Nat.find h, hwaits, hlow, fun j hcj hjk => ?_⟩
  by_contra hj
  rw [Nat.not_le] at hj
  exact Nat.find_min h hjk ⟨waits_of_le hwaits hcj (Nat.le_of_lt hjk), Nat.lt_trans hjk hsize, hj⟩

def classesBetween (s : Stream) (k i d : Nat) : Finset Nat :=
  (Finset.range i).filter fun x => k < x ∧ s.headsClass x ∧ s.depthAt x = d

def bodiesBetween (s : Stream) (k i d : Nat) : Finset Nat :=
  (Finset.range i).filter fun x => k < x ∧ s.isClassBody x ∧ s.depthAt x = d

theorem mem_classesBetween {k i d x : Nat} :
    x ∈ s.classesBetween k i d ↔ k < x ∧ x < i ∧ s.headsClass x ∧ s.depthAt x = d := by
  rw [classesBetween, Finset.mem_filter, Finset.mem_range, and_left_comm]

theorem mem_bodiesBetween {k i d x : Nat} :
    x ∈ s.bodiesBetween k i d ↔ k < x ∧ x < i ∧ s.isClassBody x ∧ s.depthAt x = d := by
  rw [bodiesBetween, Finset.mem_filter, Finset.mem_range, and_left_comm]

section Scanned

variable {n : Nat → Nesting} (hbr : Bracketed s.tokens []) (hn : Nested (levels s.tokens) []) (h : History s n)

include hbr hn in
theorem Precedes.lt_or_lt {c i k : Nat} (hp : s.Precedes c i) (hi : i < s.tokens.size)
    (hlow : s.depthAt k < s.depthAt i) : k < c ∨ i < k := by
  have hdepth := hp.depth
  by_contra hbetween
  rw [not_or, Nat.not_lt, Nat.not_lt] at hbetween
  obtain ⟨hck, hki⟩ := hbetween
  have hck : c < k := Nat.lt_of_le_of_ne hck (by rintro rfl; omega)
  have hki : k < i := Nat.lt_of_le_of_ne hki (by rintro rfl; omega)
  have := (sameBrackets_iff hbr hn hp.lt hi hdepth).1 hp.brackets k hck hki
  omega

include h

theorem takesClass_of_classOf? {i c : Nat} (hbody : s.isClassBody i) (hclass : s.classOf? i = some c) :
    s.TakesClass i c := by
  obtain ⟨d, hd, htakes⟩ := exists_takesClass h hbody
  rwa [← Option.some.inj (hclass.symm.trans hd)] at htakes

theorem eq_of_classOf? {i j c : Nat} (hi : s.isClassBody i) (hj : s.isClassBody j) (hic : s.classOf? i = some c)
    (hjc : s.classOf? j = some c) : i = j := by
  rcases Nat.lt_trichotomy i j with hij | heq | hji
  · exact absurd hic ((takesClass_of_classOf? h hj hjc).fresh i hij hi)
  · exact heq
  · exact absurd hjc ((takesClass_of_classOf? h hi hic).fresh j hji hj)

theorem isClassBody_of_classOf? {i c : Nat} (hbrace : s.isCodeBrace i) (hclass : s.classOf? i = some c)
    (hdepth : s.depthAt c = s.depthAt i) : s.isClassBody i := by
  obtain ⟨t, ht, hcode⟩ := (Option.any_eq_true _ _).1 hbrace
  simp only [Bool.and_eq_true, decide_eq_true_eq, Bool.not_eq_true'] at hcode
  have hsettled := settled_classes h ht
  obtain ⟨rest, hwaiting⟩ := List.head?_eq_some_iff.1 hclass
  rw [hwaiting, List.map_cons, hdepth, depthAt_eq ht] at hsettled
  rw [isClassBody, ht, Option.any_some]
  exact (h.turn i t ht).isClassBody hcode.1 hcode.2 (hsettled ▸ rfl)

theorem card_classesBetween_le {k i d : Nat}
    (htaken : ∀ x ∈ s.classesBetween k i d, ∃ j < i, s.isClassBody j ∧ s.classOf? j = some x) :
    (s.classesBetween k i d).card ≤ (s.bodiesBetween k i d).card := by
  have hsub : s.classesBetween k i d ⊆ (s.bodiesBetween k i d).image fun b => (s.classOf? b).getD 0 := by
    intro x hx
    obtain ⟨j, hji, hj, hjx⟩ := htaken x hx
    obtain ⟨hkx, _, _, hdepth⟩ := mem_classesBetween.1 hx
    have htakes := takesClass_of_classOf? h hj hjx
    have hbetween : j ∈ s.bodiesBetween k i d :=
      mem_bodiesBetween.2 ⟨Nat.lt_trans hkx htakes.lt, hji, hj, htakes.depth.symm.trans hdepth⟩
    exact Finset.mem_image.2 ⟨j, hbetween, by rw [hjx, Option.getD_some]⟩
  exact (Finset.card_le_card hsub).trans Finset.card_image_le

include hbr hn

theorem precedes_of_owner {owner : Nat → Nat}
    (howner : ∀ i, s.isClassBody i → s.headsClass (owner i) ∧ s.Precedes (owner i) i)
    (hinj : ∀ i j, s.isClassBody i → s.isClassBody j → owner i = owner j → i = j) {i c : Nat} (hbody : s.isClassBody i)
    (hclass : s.classOf? i = some c) : s.Precedes c i := by
  have htakes := takesClass_of_classOf? h hbody hclass
  refine ⟨htakes.lt, htakes.depth, (sameBrackets_iff hbr hn htakes.lt (lt_size_of_isClassBody hbody) htakes.depth).2 ?_⟩
  by_contra hlow
  simp only [not_forall, Nat.not_le] at hlow
  obtain ⟨k, hck, hki, hlow⟩ := hlow
  rw [htakes.depth] at hlow
  -- All classes of this depth behind `k` are taken before `i`, so there are too few of them for the bodies.
  have hbodies (b : Nat) (hb : b ∈ insert i (s.bodiesBetween k i (s.depthAt i))) :
      k < b ∧ b ≤ i ∧ s.isClassBody b ∧ s.depthAt b = s.depthAt i := by
    rcases Finset.mem_insert.1 hb with rfl | hb
    · exact ⟨hki, Nat.le_refl b, hbody, rfl⟩
    · obtain ⟨hkb, hbi, hb⟩ := mem_bodiesBetween.1 hb
      exact ⟨hkb, Nat.le_of_lt hbi, hb⟩
  have howned : (insert i (s.bodiesBetween k i (s.depthAt i))).card ≤ (s.classesBetween k i (s.depthAt i)).card := by
    apply Finset.card_le_card_of_injOn owner
    · intro b hb
      obtain ⟨hkb, hbi, hb, hdepth⟩ := hbodies b hb
      obtain ⟨hheads, hprecedes⟩ := howner b hb
      have hbehind : k < owner b := (hprecedes.lt_or_lt hbr hn (lt_size_of_isClassBody hb) (by omega)).resolve_right
        (Nat.lt_asymm hkb)
      exact mem_classesBetween.2
        ⟨hbehind, Nat.lt_of_lt_of_le hprecedes.lt hbi, hheads, hprecedes.depth.trans hdepth⟩
    · intro b hb b' hb' heq
      exact hinj b b' (hbodies b hb).2.2.1 (hbodies b' hb').2.2.1 heq
  have htaken : (s.classesBetween k i (s.depthAt i)).card ≤ (s.bodiesBetween k i (s.depthAt i)).card := by
    refine card_classesBetween_le h fun x hx => ?_
    obtain ⟨hkx, hxi, hheads, _⟩ := mem_classesBetween.1 hx
    exact htakes.last x hheads (Nat.lt_trans hck hkx) hxi
  have hnot : i ∉ s.bodiesBetween k i (s.depthAt i) := fun hi => Nat.lt_irrefl i (mem_bodiesBetween.1 hi).2.1
  rw [Finset.card_insert_of_notMem hnot] at howned
  omega

omit hbr hn in
theorem exists_taken_of_waits {c b k : Nat} (hwaits : c ∈ s.waitingClasses k)
    (hopen : ∀ j, c < j → j < k → s.depthAt c ≤ s.depthAt j) (hlater : ∀ d, c < d → ¬ s.Stale d)
    (hbrace : s.isCodeBrace b) (hcb : c < b) (hbk : b < k) (hdepth : s.depthAt b = s.depthAt c) :
    s.isClassBody b ∧ ∃ d ∈ s.classesBetween c k (s.depthAt c), s.classOf? b = some d := by
  obtain ⟨d, hd, hcd⟩ := exists_classOf? (waits_of_le hwaits hcb (Nat.le_of_lt hbk))
  have hdwaits := mem_of_classOf? hd
  obtain ⟨hdb, hdheads, _⟩ := mem_waitingClasses.1 hdwaits
  have hdk : d < k := Nat.lt_trans hdb hbk
  have hddepth : s.depthAt d = s.depthAt c := by
    rcases Nat.lt_or_eq_of_le hcd with hcd | rfl
    · refine Nat.le_antisymm ?_ (hopen d hcd hdk)
      have hfresh := hlater d hcd
      simp only [Stale, not_exists, not_and, Nat.not_lt] at hfresh
      rw [← hdepth]
      exact hfresh b hdwaits (lt_size_of_isCodeBrace hbrace)
    · rfl
  have hbody := isClassBody_of_classOf? h hbrace hd (hddepth.trans hdepth.symm)
  have hne : c ≠ d := by
    rintro rfl
    exact (mem_waitingClasses.1 hwaits).2.2 b hbk hbody hd
  exact ⟨hbody, d, mem_classesBetween.2 ⟨Nat.lt_of_le_of_ne hcd hne, hdk, hdheads, hddepth⟩, hd⟩

theorem not_stale {own : Nat → Nat}
    (hown : ∀ c, s.headsClass c → 0 < s.depthAt c → s.isCodeBrace (own c) ∧ s.Precedes c (own c))
    (hinj : ∀ c d, s.headsClass c → s.headsClass d → own c = own d → c = d) {c : Nat}
    (hlater : ∀ d, c < d → ¬ s.Stale d) : ¬ s.Stale c := by
  intro hstale
  obtain ⟨k, hwaits, hlow, hopen⟩ := hstale.exists_first
  obtain ⟨hck, hheads, _⟩ := mem_waitingClasses.1 hwaits
  -- The braces of `c` and of the classes behind it begin bodies before `k`, and none of these takes `c`.
  have hclasses (x : Nat) (hx : x ∈ insert c (s.classesBetween c k (s.depthAt c))) :
      c ≤ x ∧ x < k ∧ s.headsClass x ∧ s.depthAt x = s.depthAt c := by
    rcases Finset.mem_insert.1 hx with rfl | hx
    · exact ⟨Nat.le_refl x, hck, hheads, rfl⟩
    · obtain ⟨hcx, hx⟩ := mem_classesBetween.1 hx
      exact ⟨Nat.le_of_lt hcx, hx⟩
  have htaken (x : Nat) (hx : x ∈ insert c (s.classesBetween c k (s.depthAt c))) :
      s.isClassBody (own x) ∧ ∃ d ∈ s.classesBetween c k (s.depthAt c), s.classOf? (own x) = some d := by
    obtain ⟨hcx, hxk, hheads, hdepth⟩ := hclasses x hx
    obtain ⟨hbrace, hprecedes⟩ := hown x hheads (by omega)
    have hbdepth : s.depthAt (own x) = s.depthAt c := hprecedes.depth.symm.trans hdepth
    have hbk : own x < k := (hprecedes.lt_or_lt hbr hn (lt_size_of_isCodeBrace hbrace) (by omega)).resolve_left
      (Nat.lt_asymm hxk)
    exact exists_taken_of_waits h hwaits hopen hlater hbrace (Nat.lt_of_le_of_lt hcx hprecedes.lt) hbk hbdepth
  have hle : (insert c (s.classesBetween c k (s.depthAt c))).card ≤ (s.classesBetween c k (s.depthAt c)).card := by
    apply Finset.card_le_card_of_injOn fun x => (s.classOf? (own x)).getD 0
    · intro x hx
      obtain ⟨_, d, hd, hclass⟩ := htaken x hx
      dsimp only
      rw [hclass]
      exact hd
    · intro x hx y hy heq
      obtain ⟨hbx, d, _, hdx⟩ := htaken x hx
      obtain ⟨hby, e, _, hey⟩ := htaken y hy
      simp only [hdx, hey, Option.getD_some] at heq
      subst heq
      exact hinj x y (hclasses x hx).2.2.1 (hclasses y hy).2.2.1 (eq_of_classOf? h hbx hby hdx hey)
  have hnot : c ∉ s.classesBetween c k (s.depthAt c) := fun hc => Nat.lt_irrefl c (mem_classesBetween.1 hc).1
  rw [Finset.card_insert_of_notMem hnot] at hle
  omega

theorem precedes_of_own {own : Nat → Nat}
    (hown : ∀ c, s.headsClass c → 0 < s.depthAt c → s.isCodeBrace (own c) ∧ s.Precedes c (own c))
    (hinj : ∀ c d, s.headsClass c → s.headsClass d → own c = own d → c = d) {i c : Nat} (hbody : s.isClassBody i)
    (hclass : s.classOf? i = some c) : s.Precedes c i := by
  have hnone (m : Nat) : ∀ d, s.tokens.size ≤ d + m → ¬ s.Stale d := by
    induction m with
    | zero =>
      rintro d hd ⟨k, hwaits, hk, _⟩
      have := lt_of_mem_waitingClasses hwaits
      omega
    | succ m ih =>
      intro d hd
      exact not_stale hbr hn h hown hinj fun e hde => ih e (by omega)
  have htakes := takesClass_of_classOf? h hbody hclass
  have hi := lt_size_of_isClassBody hbody
  refine ⟨htakes.lt, htakes.depth, (sameBrackets_iff hbr hn htakes.lt hi htakes.depth).2 fun k hck hki => ?_⟩
  have hnot := hnone s.tokens.size c (Nat.le_add_left _ _)
  simp only [Stale, not_exists, not_and, Nat.not_lt] at hnot
  exact hnot k (waits_of_le (mem_of_classOf? hclass) hck (Nat.le_of_lt hki)) (Nat.lt_trans hki hi)

end Scanned

/-- Each body takes a class of its own. It is a class of its brackets whenever the bodies can be given such classes, and
whenever the classes can be given such braces. -/
theorem class_bodies_belong_iff {source : List Char} (h : Stream.read source = .ok s) :
    (∀ i, s.isClassBody i → ∃ c, s.classOf? i = some c ∧ s.TakesClass i c) ∧
    ((∃ owner : Nat → Nat, (∀ i, s.isClassBody i → s.headsClass (owner i) ∧ s.Precedes (owner i) i) ∧
        ∀ i j, s.isClassBody i → s.isClassBody j → owner i = owner j → i = j) ↔
      ∀ i c, s.isClassBody i → s.classOf? i = some c → s.Precedes c i) ∧
    ((∃ own : Nat → Nat,
        (∀ c, s.headsClass c → 0 < s.depthAt c → s.isCodeBrace (own c) ∧ s.Precedes c (own c)) ∧
        ∀ c d, s.headsClass c → s.headsClass d → own c = own d → c = d) →
      ∀ i c, s.isClassBody i → s.classOf? i = some c → s.Precedes c i) := by
  obtain ⟨n, hn⟩ := Stream.exists_history h
  have hbr := bracketed_of_read h
  have hnested := nested_of_read h
  refine ⟨fun i => exists_takesClass hn, ⟨?_, fun hall => ?_⟩, ?_⟩
  · rintro ⟨owner, howner, hinj⟩ i c
    exact precedes_of_owner hbr hnested hn howner hinj
  · have htaken (i : Nat) (hi : s.isClassBody i) : s.classOf? i = some ((s.classOf? i).getD 0) := by
      obtain ⟨c, hc, _⟩ := exists_takesClass hn hi
      rw [hc, Option.getD_some]
    refine ⟨fun i => (s.classOf? i).getD 0, fun i hi => ?_, fun i j hi hj heq => ?_⟩
    · exact ⟨(takesClass_of_classOf? hn hi (htaken i hi)).heads, hall i _ hi (htaken i hi)⟩
    · exact eq_of_classOf? hn hi hj (htaken i hi) ((htaken j hj).trans (congrArg some heq.symm))
  · rintro ⟨own, hown, hinj⟩ i c
    exact precedes_of_own hbr hnested hn hown hinj

theorem class_bodies_belong_method :
    let source := "\x7b class A extends B \x7b m() \x7b return \x7b\x7d \x7d \x7d \x7d".toList
    ∃ s, Stream.read source = .ok s ∧ s.isClassBody 5 ∧ s.classOf? 5 = some 1 ∧ s.Precedes 1 5 := by
  intro source
  obtain ⟨s, hs, h⟩ := exists_ok_of_test (x := Stream.read source) (fun s =>
    s.isClassBody 5 && s.classOf? 5 = some 1 && s.isCodeBrace 5 && s.depthAt 1 = s.depthAt 5 &&
      ((List.range 5).all fun k => s.depthAt 1 ≤ s.depthAt k || k = 0) &&
      (List.range s.tokens.size).all fun c => !s.headsClass c || c = 1) (by decide +kernel)
  simp only [Bool.and_eq_true, decide_eq_true_eq] at h
  obtain ⟨⟨⟨⟨⟨hbody, hclass⟩, hbrace⟩, hdepth⟩, hinner⟩, honly⟩ := h
  have hbrackets : s.SameBrackets 1 5 := by
    rw [sameBrackets_iff (bracketed_of_read hs) (nested_of_read hs) (by omega) (lt_size_of_isClassBody hbody) hdepth]
    intro k hk hk'
    have := List.all_eq_true.1 hinner k (List.mem_range.2 hk')
    simp only [Bool.or_eq_true, decide_eq_true_eq] at this
    omega
  have hown (c : Nat) (hheads : s.headsClass c) (_ : 0 < s.depthAt c) :
      s.isCodeBrace (c + 4) ∧ s.Precedes c (c + 4) := by
    have hlt := lt_size_of_isAt (Bool.and_eq_true_iff.1 hheads).1
    have hc := List.all_eq_true.1 honly c (List.mem_range.2 hlt)
    rw [hheads, Bool.not_true, Bool.false_or, decide_eq_true_eq] at hc
    subst hc
    exact ⟨hbrace, by omega, hdepth, hbrackets⟩
  have hprecedes := (class_bodies_belong_iff hs).2.2 ⟨(· + 4), hown, fun c d _ _ => Nat.add_right_cancel⟩
  exact ⟨s, hs, hbody, hclass, hprecedes 5 1 hbody hclass⟩

/-- The name `class` in a list of imports turns a block of a later one into the body of a class. -/
theorem class_body_of_name :
    let source := "import \x7b class as c \x7d from 'm';\n\x7b \x7b\x7d \x7d".toList
    ∃ s, Stream.read source = .ok s ∧ s.isClassBody 10 ∧
      ¬ ∃ c, c < 10 ∧ s.isAt c (.keyword .«class») ∧ s.depthAt c = s.depthAt 10 ∧ s.SameBrackets c 10 := by
  intro source
  obtain ⟨s, hs, h⟩ := exists_ok_of_test (x := Stream.read source) (fun s =>
    s.isClassBody 10 && s.depthAt 2 = 1 && s.depthAt 5 = 0 &&
      (List.range 10).all fun c => !s.isAt c (.keyword .«class») || c = 2) (by decide +kernel)
  simp only [Bool.and_eq_true, decide_eq_true_eq] at h
  obtain ⟨⟨⟨hbody, htwo⟩, hfive⟩, honly⟩ := h
  refine ⟨s, hs, hbody, ?_⟩
  rintro ⟨c, hc, hclass, hdepth, hsame⟩
  have hc' := List.all_eq_true.1 honly c (List.mem_range.2 hc)
  rw [hclass, Bool.not_true, Bool.false_or, decide_eq_true_eq] at hc'
  subst hc'
  have := (sameBrackets_iff (bracketed_of_read hs) (nested_of_read hs) hc (lt_size_of_isClassBody hbody) hdepth).1
    hsame 5 (by omega) (by omega)
  omega

end Stream

end ModuleLowering
