import Mathlib.Data.List.Basic
import ModuleLowering.Proofs.Scan.History

namespace ModuleLowering

def Token.isClassBody (t : Token) : Bool := t.kind = .openBrace && t.group = some .classBody

def Kind.continuesClass (kind : Kind) : Bool :=
  kind = .identifier || kind = .keyword .«extends» || kind = .openBrace

namespace Nesting

theorem braceRegion_ne_classBody (n : Nesting) (previous : Option Token) : n.braceRegion previous ≠ .classBody := by
  unfold braceRegion
  dsimp only
  split <;> (repeat' split) <;> decide

theorem exit_classes (n : Nesting) : n.exit.classes = n.classes := by
  unfold exit
  split <;> rfl

theorem endTag_classes {n after : Nesting} (h : n.endTag = .ok after) : after.classes = n.classes := by
  unfold endTag at h
  split at h <;> cases h <;> rfl

theorem endEmptyTag_classes {n after : Nesting} (h : n.endEmptyTag = .ok after) : after.classes = n.classes := by
  unfold endEmptyTag at h
  split at h <;> cases h
  rfl

theorem placeEffect_classes {n : Nesting} {previous : Option Token} {kind : Kind} {effect : Effect} {index : Nat}
    {p : Place} (h : n.placeEffect previous kind index effect = .ok p) (hfits : effect.Fits kind n.frames) :
    if kind = .openBrace ∧ p.group = some .classBody then
      n.classes = p.around.depth :: p.after.classes
    else p.after.classes = n.classes := by
  have hother (hgroup : p.group ≠ some .classBody) (hclasses : p.after.classes = n.classes) :
      if kind = .openBrace ∧ p.group = some .classBody then n.classes = p.around.depth :: p.after.classes
      else p.after.classes = n.classes := by
    rw [if_neg fun hbody => hgroup hbody.2]
    exact hclasses
  cases effect with
  | stays | asks | answers | beginsTag =>
    cases h
    exact hother nofun rfl
  | leaves =>
    cases h
    exact hother nofun n.exit_classes
  | reenters =>
    cases h
    exact hother nofun n.exit_classes
  | endsTag =>
    obtain ⟨after, hafter, rfl⟩ := map_eq_ok_iff.1 h
    exact hother nofun (endTag_classes hafter)
  | endsEmptyTag =>
    obtain ⟨after, hafter, rfl⟩ := map_eq_ok_iff.1 h
    exact hother nofun (endEmptyTag_classes hafter)
  | opensBrace =>
    unfold placeEffect brace at h
    dsimp only at h
    split at h
    · rename_i hawaits
      cases h
      obtain ⟨classes, hclasses⟩ := List.head?_eq_some_iff.1 (of_decide_eq_true hawaits)
      rw [if_pos ⟨hfits, rfl⟩, hclasses]
      rfl
    · cases h
      exact hother (fun hgroup => n.braceRegion_ne_classBody previous (Option.some.inj hgroup)) rfl
  | opens region =>
    cases h
    rw [if_neg]
    · rfl
    · rintro ⟨hkind, hgroup⟩
      rw [(hfits.2.2 hkind).2] at hgroup
      cases hgroup
  | closes =>
    obtain ⟨region, _, _, _, _, hcloser, rfl, _⟩ := close_cases h
    rw [if_neg]
    · exact n.exit_classes
    · rintro ⟨rfl, _⟩
      cases region <;> cases hcloser

end Nesting

theorem Turn.classes {previous : Option Token} {k : Nat} {t : Token} {n after : Nesting}
    (h : Turn previous k t n after) :
    if t.isClassBody then (n.settleClass previous t.kind).classes = t.depth :: after.classes
    else if t.kind = .keyword .«class» then after.classes = t.depth :: (n.settleClass previous t.kind).classes
    else after.classes = (n.settleClass previous t.kind).classes := by
  obtain ⟨pair, hmoves⟩ := h.moves
  cases h with
  | @intro effect p hfits hplace _ hd hc hg =>
    obtain ⟨q, hq, hp⟩ := bind_eq_ok_iff.1 hplace
    cases hp
    dsimp only at hd hg hmoves ⊢
    rw [← n.settleClass_frames previous] at hfits
    have hclasses := Nesting.placeEffect_classes hq hfits
    rw [← hd, ← hg] at hclasses
    have hiff : (t.kind = .openBrace ∧ t.group = some .classBody) ↔ t.isClassBody = true := by simp [Token.isClassBody]
    by_cases hbody : t.isClassBody
    · rw [if_pos hbody]
      rw [if_pos (hiff.2 hbody)] at hclasses
      rw [hclasses, Nesting.awaitClass, if_neg]
      rw [(hiff.2 hbody).1]
      nofun
    · rw [if_neg hbody]
      rw [if_neg (mt hiff.1 hbody)] at hclasses
      by_cases hclass : t.kind = .keyword .«class»
      · obtain ⟨hframes, _, hdepth, _⟩ := hmoves.stays_of_isSteady (by dsimp only; rw [hclass]; rfl)
        rw [Nesting.awaitClass_frames] at hframes
        have hafter : q.after.depth = t.depth := by rw [Nesting.depth, hframes]; exact hdepth.symm
        rw [if_pos hclass, Nesting.awaitClass, if_pos hclass]
        exact congrArg₂ _ hafter hclasses
      · rw [if_neg hclass, Nesting.awaitClass, if_neg hclass]
        exact hclasses

theorem Turn.isClassBody {previous : Option Token} {k : Nat} {t : Token} {n after : Nesting}
    (h : Turn previous k t n after) (hk : t.kind = .openBrace) (hcode : t.context.isJsx = false)
    (hclass : (n.settleClass previous t.kind).classes.head? = some t.depth) : t.isClassBody := by
  cases h with
  | @intro effect p hfits hplace _ hd hc hg =>
    obtain ⟨q, hq, hp⟩ := bind_eq_ok_iff.1 hplace
    cases hp
    dsimp only at hd hc hg
    rw [← n.settleClass_frames previous t.kind, hk] at hfits
    rw [Token.isClassBody, hk, hg]
    rw [hk] at hq hclass
    generalize n.settleClass previous .openBrace = m at hfits hq hclass
    rw [hd] at hclass
    rw [hc] at hcode
    cases effect with
    | opensBrace =>
      unfold Nesting.placeEffect Nesting.brace at hq
      by_cases hawaits : m.awaitsClassBody
      · rw [if_pos hawaits] at hq
        cases hq
        rfl
      · rw [if_neg hawaits] at hq
        cases hq
        exact absurd (decide_eq_true hclass) hawaits
    | opens region =>
      cases hq
      have hjsx : m.context.isJsx = true := (hfits.2.2 rfl).1
      rw [hjsx] at hcode
      cases hcode
    | closes =>
      obtain ⟨region, _, _, _, _, hcloser, _⟩ := Nesting.close_cases hq
      cases region <;> cases hcloser
    | beginsTag closing => cases closing <;> cases hfits
    | leaves | reenters | endsTag | endsEmptyTag => cases hfits.1
    | stays | asks | answers => cases hfits

namespace Stream

variable {s : Stream} {n : Nat → Nesting}

def headsClass (s : Stream) (i : Nat) : Bool :=
  s.isAt i (.keyword .«class») && s.tokens[i + 1]?.any (·.kind.continuesClass)

def isClassBody (s : Stream) (i : Nat) : Bool := s.tokens[i]?.any (·.isClassBody)

def depthAt (s : Stream) (i : Nat) : Nat := (s.tokens[i]?.map (·.depth)).getD 0

theorem depthAt_eq {i : Nat} {t : Token} (ht : s.tokens[i]? = some t) : s.depthAt i = t.depth := by
  rw [depthAt, ht]
  rfl

def waitingClasses (s : Stream) : Nat → List Nat
  | 0 => []
  | i + 1 =>
    let rest := if s.isClassBody i then (s.waitingClasses i).tail else s.waitingClasses i
    if s.headsClass i then i :: rest else rest

def classOf? (s : Stream) (i : Nat) : Option Nat := (s.waitingClasses i).head?

theorem settled_classes (h : History s n) {k : Nat} {t : Token} (ht : s.tokens[k]? = some t) :
    ((n k).settleClass (s.before? k) t.kind).classes = (s.waitingClasses k).map s.depthAt := by
  induction k generalizing t with
  | zero =>
    rw [h.start]
    unfold Nesting.settleClass
    split <;> rfl
  | succ k ih =>
    obtain ⟨u, hu⟩ : ∃ u, s.tokens[k]? = some u :=
      ⟨_, Array.getElem?_eq_getElem (Nat.lt_of_succ_lt (lt_size_of_getElem? ht))⟩
    have hturn := (h.turn k u hu).classes
    rw [ih hu] at hturn
    have hdepth : s.depthAt k = u.depth := depthAt_eq hu
    have hbody : s.isClassBody k = u.isClassBody := by rw [isClassBody, hu]; rfl
    have hheads : s.headsClass k = (decide (u.kind = .keyword .«class») && t.kind.continuesClass) := by
      simp [headsClass, isAt, kind?, hu, ht]
    have hbefore : s.before? (k + 1) = some u := hu
    rw [waitingClasses, hbody, hheads, Nesting.settleClass, hbefore, Option.any_some]
    by_cases hopens : u.isClassBody
    · have hkind : u.kind = .openBrace := by
        simp only [Token.isClassBody, Bool.and_eq_true, decide_eq_true_eq] at hopens
        exact hopens.1
      rw [if_pos hopens] at hturn
      simp only [hkind, hopens, reduceCtorEq, decide_false, Bool.false_and, if_false, if_true, Bool.false_eq_true]
      rw [List.map_tail, hturn, List.tail_cons]
    · rw [if_neg hopens] at hturn
      rw [if_neg hopens]
      by_cases hclass : u.kind = .keyword .«class»
      · rw [if_pos hclass, ← hdepth, ← List.map_cons] at hturn
        rw [← Kind.continuesClass, decide_eq_true hclass, Bool.true_and, Bool.true_and]
        cases t.kind.continuesClass with
        | true => exact hturn
        | false => exact (congrArg List.tail hturn).trans (List.map_tail ..).symm
      · rw [if_neg hclass] at hturn
        simp only [hclass, decide_false, Bool.false_and, Bool.false_eq_true, if_false, hturn]

theorem lt_of_mem_waitingClasses {c k : Nat} (h : c ∈ s.waitingClasses k) : c < k := by
  induction k with
  | zero => cases h
  | succ k ih =>
    have hrest (h : c ∈ if s.isClassBody k then (s.waitingClasses k).tail else s.waitingClasses k) : c < k := by
      split at h
      · exact ih (List.mem_of_mem_tail h)
      · exact ih h
    rw [waitingClasses] at h
    split at h
    · rcases List.mem_cons.1 h with rfl | h
      · exact Nat.lt_succ_self c
      · exact Nat.lt_succ_of_lt (hrest h)
    · exact Nat.lt_succ_of_lt (hrest h)

theorem waitingClasses_ordered (s : Stream) (k : Nat) : (s.waitingClasses k).Pairwise (· > ·) := by
  induction k with
  | zero => exact .nil
  | succ k ih =>
    have hrest : (if s.isClassBody k then (s.waitingClasses k).tail else s.waitingClasses k).Sublist
        (s.waitingClasses k) := by
      split
      · exact List.tail_sublist _
      · exact List.Sublist.refl _
    rw [waitingClasses]
    split
    · exact List.pairwise_cons.2 ⟨fun c hc => lt_of_mem_waitingClasses (hrest.subset hc), ih.sublist hrest⟩
    · exact ih.sublist hrest

theorem mem_of_classOf? {c i : Nat} (h : s.classOf? i = some c) : c ∈ s.waitingClasses i := List.mem_of_head? h

theorem mem_tail_waitingClasses {c k : Nat} :
    c ∈ (s.waitingClasses k).tail ↔ c ∈ s.waitingClasses k ∧ s.classOf? k ≠ some c := by
  have hordered := s.waitingClasses_ordered k
  unfold classOf?
  cases hwaiting : s.waitingClasses k with
  | nil => simp
  | cons d ds =>
    rw [hwaiting, List.pairwise_cons] at hordered
    rw [List.tail_cons, List.mem_cons, List.head?_cons, ne_eq, Option.some.injEq]
    constructor
    · intro hc
      exact ⟨.inr hc, Nat.ne_of_gt (hordered.1 c hc)⟩
    · rintro ⟨rfl | hc, hne⟩
      · exact absurd rfl hne
      · exact hc

theorem mem_waitingClasses_succ {c k : Nat} :
    c ∈ s.waitingClasses (k + 1) ↔
      (s.headsClass k ∧ c = k) ∨ (c ∈ s.waitingClasses k ∧ (s.isClassBody k → s.classOf? k ≠ some c)) := by
  have hrest : (c ∈ if s.isClassBody k then (s.waitingClasses k).tail else s.waitingClasses k) ↔
      c ∈ s.waitingClasses k ∧ (s.isClassBody k → s.classOf? k ≠ some c) := by
    split
    · rename_i hbody
      rw [mem_tail_waitingClasses]
      exact and_congr_right fun _ => ⟨fun h _ => h, fun h => h hbody⟩
    · rename_i hbody
      exact ⟨fun h => ⟨h, fun hb => absurd hb hbody⟩, And.left⟩
  rw [waitingClasses, ← hrest]
  split
  · rename_i hheads
    rw [List.mem_cons, and_iff_right hheads]
  · rename_i hheads
    exact ⟨.inr, fun h => h.resolve_left fun hk => hheads hk.1⟩

theorem mem_waitingClasses {c k : Nat} :
    c ∈ s.waitingClasses k ↔ c < k ∧ s.headsClass c ∧ ∀ j < k, s.isClassBody j → s.classOf? j ≠ some c := by
  induction k with
  | zero => simp [waitingClasses]
  | succ k ih =>
    rw [mem_waitingClasses_succ, ih]
    constructor
    · rintro (⟨hheads, rfl⟩ | ⟨⟨hlt, hheads, hfree⟩, hk⟩)
      · refine ⟨Nat.lt_succ_self c, hheads, fun j hj _ hclass => ?_⟩
        have := lt_of_mem_waitingClasses (mem_of_classOf? hclass)
        omega
      · refine ⟨Nat.lt_succ_of_lt hlt, hheads, fun j hj hbody => ?_⟩
        rcases Nat.lt_or_eq_of_le (Nat.le_of_lt_succ hj) with hj | rfl
        · exact hfree j hj hbody
        · exact hk hbody
    · rintro ⟨hlt, hheads, hfree⟩
      rcases Nat.lt_or_eq_of_le (Nat.le_of_lt_succ hlt) with hlt | rfl
      · exact .inr ⟨⟨hlt, hheads, fun j hj => hfree j (Nat.lt_succ_of_lt hj)⟩, hfree k (Nat.lt_succ_self k)⟩
      · exact .inl ⟨hheads, rfl⟩

theorem waits_of_le {c j k : Nat} (h : c ∈ s.waitingClasses k) (hcj : c < j) (hjk : j ≤ k) :
    c ∈ s.waitingClasses j := by
  obtain ⟨_, hheads, hfree⟩ := mem_waitingClasses.1 h
  exact mem_waitingClasses.2 ⟨hcj, hheads, fun i hi => hfree i (by omega)⟩

theorem exists_classOf? {c k : Nat} (h : c ∈ s.waitingClasses k) : ∃ d, s.classOf? k = some d ∧ c ≤ d := by
  have hordered := s.waitingClasses_ordered k
  unfold classOf?
  cases hwaiting : s.waitingClasses k with
  | nil => simp [hwaiting] at h
  | cons d ds =>
    rw [hwaiting] at h hordered
    refine ⟨d, rfl, ?_⟩
    rcases List.mem_cons.1 h with rfl | h
    · exact Nat.le_refl c
    · exact Nat.le_of_lt ((List.pairwise_cons.1 hordered).1 c h)

/-- The body at `i` takes the class at `c`, the last before it that no earlier body has taken. -/
structure TakesClass (s : Stream) (i c : Nat) : Prop where
  heads : s.headsClass c
  lt : c < i
  depth : s.depthAt c = s.depthAt i
  fresh : ∀ j < i, s.isClassBody j → s.classOf? j ≠ some c
  last : ∀ d, s.headsClass d → c < d → d < i → ∃ j < i, s.isClassBody j ∧ s.classOf? j = some d

theorem exists_takesClass (h : History s n) {i : Nat} (hbody : s.isClassBody i) :
    ∃ c, s.classOf? i = some c ∧ s.TakesClass i c := by
  obtain ⟨t, ht, hopens⟩ := (Option.any_eq_true _ _).1 hbody
  have hturn := (h.turn i t ht).classes
  rw [if_pos hopens, settled_classes h ht] at hturn
  obtain ⟨c, rest, hwaiting, hdepth, _⟩ := List.map_eq_cons_iff.1 hturn
  have hclass : s.classOf? i = some c := by rw [classOf?, hwaiting, List.head?_cons]
  obtain ⟨hlt, hheads, hfresh⟩ := mem_waitingClasses.1 (mem_of_classOf? hclass)
  refine ⟨c, hclass, hheads, hlt, ?_, hfresh, fun d hd hcd hdi => ?_⟩
  · rw [hdepth, depthAt_eq ht]
  · by_contra hnone
    simp only [not_exists, not_and] at hnone
    have hmem : d ∈ s.waitingClasses i := mem_waitingClasses.2 ⟨hdi, hd, hnone⟩
    have hordered := s.waitingClasses_ordered i
    rw [hwaiting] at hmem hordered
    rcases List.mem_cons.1 hmem with rfl | hmem
    · exact Nat.lt_irrefl _ hcd
    · have := (List.pairwise_cons.1 hordered).1 d hmem
      omega

end Stream

end ModuleLowering
