import ModuleLowering.Proofs.Role.Coverage

/-!
Runs of tokens in which every bracket and every template is closed. At its end such a run is as deep in brackets as
at its beginning, and in between it never leaves the brackets around it, so what closes the bracket before it in
the text is its partner.
-/

namespace ModuleLowering

namespace Kind

def drop : Kind → Nat
  | closeBrace | closeParen | closeBracket | templateMiddle | templateTail => 1
  | _ => 0

def rise : Kind → Nat
  | openBrace | openParen | openBracket | templateHead | templateMiddle => 1
  | _ => 0

def isFlat (kind : Kind) : Bool := kind.drop = 0 && kind.rise = 0

def mate? : Kind → Option Kind
  | templateHead => some templateTail
  | kind => kind.closer?

theorem shift_of_isFlat {kind : Kind} (h : kind.isFlat) : kind.drop = 0 ∧ kind.rise = 0 := by
  simpa [isFlat] using h

theorem shift_of_not_structural {kind : Kind} (h : kind.isStructural = false) : kind.drop = 0 ∧ kind.rise = 0 := by
  cases kind <;> first | exact ⟨rfl, rfl⟩ | cases h

theorem mate?_of_closer? {a b : Kind} (h : a.closer? = some b) : a.mate? = some b := by
  cases a <;> first | exact h | cases h

theorem shift_of_mate? {a b : Kind} (h : a.mate? = some b) : a.drop = 0 ∧ a.rise = 1 ∧ b.drop = 1 ∧ b.rise = 0 := by
  cases a <;> cases h <;> exact ⟨rfl, rfl, rfl, rfl⟩

end Kind

theorem Region.Opens.shift {region : Region} {kind : Kind} (h : region.Opens kind) (hnew : kind ≠ .templateMiddle) :
    kind.drop = 0 ∧ kind.rise = 1 := by
  cases region with
  | topLevel | jsxTag | jsxChildren => cases h
  | templateExpr =>
    obtain rfl | rfl := h
    · exact ⟨rfl, rfl⟩
    · exact absurd rfl hnew
  | _ => obtain rfl := h; exact ⟨rfl, rfl⟩

theorem Region.shift_of_closer? {region : Region} {kind : Kind} (h : region.closer? = some kind) :
    kind.drop = 1 ∧ kind.rise = 0 := by
  cases region <;> cases h <;> exact ⟨rfl, rfl⟩

theorem Moves.frameDepth_eq {index : Nat} {t : Token} {fs gs : List Frame} (h : Moves index t fs gs) :
    frameDepth fs = t.depth + t.kind.drop ∧ frameDepth gs = t.depth + t.kind.rise := by
  cases h with
  | stays hk _ hd =>
    obtain ⟨hdrop, hrise⟩ := Kind.shift_of_not_structural hk
    rw [hdrop, hrise]
    exact ⟨hd.symm, hd.symm⟩
  | opens _ _ hk _ _ hd _ hnew =>
    obtain ⟨hdrop, hrise⟩ := hk.shift hnew
    rw [hdrop, hrise, frameDepth_group]
    exact ⟨hd.symm, by rw [hd]⟩
  | closes _ _ _ hk _ _ hd =>
    obtain ⟨hdrop, hrise⟩ := Region.shift_of_closer? hk
    rw [hdrop, hrise, frameDepth_group]
    exact ⟨by rw [hd], hd.symm⟩
  | leaves _ _ hk _ hd =>
    rw [hk, frameDepth_group]
    exact ⟨by rw [hd]; rfl, hd.symm⟩
  | reenters _ _ _ hk _ _ hd =>
    rw [hk, frameDepth_group, frameDepth_group]
    exact ⟨by rw [hd]; rfl, by rw [hd]; rfl⟩
  | beginsTag closing hk _ hd =>
    rw [hk, frameDepth_tag]
    cases closing <;> exact ⟨hd.symm, hd.symm⟩
  | endsOpeningTag hk _ hd =>
    rw [hk, frameDepth_tag, frameDepth_children]
    exact ⟨hd.symm, hd.symm⟩
  | endsElement hk _ hd =>
    rw [hk, frameDepth_tag, frameDepth_children]
    exact ⟨hd.symm, hd.symm⟩
  | endsEmptyElement hk _ hd =>
    rw [hk, frameDepth_tag]
    exact ⟨hd.symm, hd.symm⟩

namespace Stream

variable {source : List Char} {s : Stream} {level : Nat → Nat}

def Leveled (s : Stream) (level : Nat → Nat) : Prop :=
  ∀ k t, s.tokens[k]? = some t → level k = t.depth + t.kind.drop ∧ level (k + 1) = t.depth + t.kind.rise

theorem exists_leveled (hs : scan source = .ok s) : ∃ level, s.Leveled level := by
  obtain ⟨r, hr, ho⟩ := outline_of_scan hs
  obtain ⟨n, h⟩ := exists_history hr
  refine ⟨fun k => frameDepth (n k).frames, fun k t ht => ?_⟩
  obtain ⟨u, hu, hut⟩ := exists_of_outline ho ht
  obtain ⟨hkind, _, hdepth⟩ := same_of_outline hut
  obtain ⟨pair, hmoves⟩ := (h.turn k u hu).moves
  rw [← hkind, ← hdepth]
  exact hmoves.frameDepth_eq

theorem Leveled.of_isAt (hl : s.Leveled level) {k : Nat} {kind : Kind} (hk : s.isAt k kind) :
    level k = s.depthAt k + kind.drop ∧ level (k + 1) = s.depthAt k + kind.rise := by
  obtain ⟨t, ht, rfl⟩ := isAt_iff.1 hk
  rw [depthAt_eq ht]
  exact hl k t ht

end Stream

inductive Setting
  | value
  | brackets
  | template

namespace Setting

def admits : Setting → Kind → Bool
  | value, kind => kind.isFlat && kind ≠ .comma
  | brackets, kind => kind.isFlat
  | template, kind => kind.isFlat || kind = .templateMiddle

def slack : Setting → Nat
  | template => 1
  | _ => 0

def margin : Setting → Nat
  | value => 1
  | _ => 0

def inside (opener : Kind) : Setting := if opener = .templateHead then .template else .brackets

theorem slack_le (w : Setting) : w.slack ≤ 1 := by cases w <;> decide

theorem margin_le (w : Setting) : w.margin ≤ 1 := by cases w <;> decide

theorem cases_of_admits {w : Setting} {kind : Kind} (h : w.admits kind) :
    kind.rise = kind.drop ∧ kind.drop ≤ w.slack ∧ (kind = .comma → w.margin = 0) := by
  have hflat (hkind : kind.isFlat) : kind.rise = kind.drop ∧ kind.drop ≤ w.slack := by
    obtain ⟨hdrop, hrise⟩ := Kind.shift_of_isFlat hkind
    exact ⟨hrise.trans hdrop.symm, hdrop ▸ Nat.zero_le _⟩
  cases w with
  | value =>
    obtain ⟨hkind, hcomma⟩ := Bool.and_eq_true_iff.1 h
    obtain ⟨hrise, hdrop⟩ := hflat hkind
    exact ⟨hrise, hdrop, fun heq => absurd heq (of_decide_eq_true hcomma)⟩
  | brackets =>
    obtain ⟨hrise, hdrop⟩ := hflat h
    exact ⟨hrise, hdrop, fun _ => rfl⟩
  | template =>
    obtain hkind | hmiddle := Bool.or_eq_true_iff.1 h
    · obtain ⟨hrise, hdrop⟩ := hflat hkind
      exact ⟨hrise, hdrop, fun _ => rfl⟩
    · rw [of_decide_eq_true hmiddle]
      exact ⟨rfl, Nat.le_refl 1, nofun⟩

end Setting

namespace Stream

variable {source : List Char} {s : Stream} {level : Nat → Nat}

/-- The tokens from `i` up to `j`, in which every bracket and every template is closed. -/
inductive RunAt (s : Stream) : Setting → Nat → Nat → Prop
  | nil {w : Setting} {i : Nat} : s.RunAt w i i
  | token {w : Setting} {i j : Nat} {kind : Kind} (hkind : s.isAt i kind) (hadmits : w.admits kind)
      (hrest : s.RunAt w (i + 1) j) : s.RunAt w i j
  | group {w : Setting} {i j k : Nat} {a b : Kind} (hopen : s.isAt i a) (hmate : a.mate? = some b)
      (hinside : s.RunAt (.inside a) (i + 1) j) (hclose : s.isAt j b) (hrest : s.RunAt w (j + 1) k) : s.RunAt w i k

structure Keeps (s : Stream) (level : Nat → Nat) (w : Setting) (i j : Nat) : Prop where
  le : i ≤ j
  level_eq : level j = level i
  deep : ∀ k, i ≤ k → k < j → level i ≤ s.depthAt k + w.slack
  comma : ∀ k, i ≤ k → k < j → s.isAt k .comma → level i + w.margin ≤ s.depthAt k

namespace Keeps

theorem refl (w : Setting) (i : Nat) : s.Keeps level w i i :=
  ⟨Nat.le_refl i, rfl, fun _ _ _ => by omega, fun _ _ _ => by omega⟩

theorem trans {w : Setting} {i j k : Nat} (h : s.Keeps level w i j) (h' : s.Keeps level w j k) :
    s.Keeps level w i k := by
  have hlevel := h.level_eq
  refine ⟨Nat.le_trans h.le h'.le, h'.level_eq.trans hlevel, fun m him hmk => ?_, fun m him hmk hm => ?_⟩
  · rcases Nat.lt_or_ge m j with hmj | hjm
    · exact h.deep m him hmj
    · exact hlevel ▸ h'.deep m hjm hmk
  · rcases Nat.lt_or_ge m j with hmj | hjm
    · exact h.comma m him hmj hm
    · exact hlevel ▸ h'.comma m hjm hmk hm

theorem brackets_of_value {i j : Nat} (h : s.Keeps level .value i j) : s.Keeps level .brackets i j :=
  ⟨h.le, h.level_eq, h.deep, fun k hik hkj hk => Nat.le_of_succ_le (h.comma k hik hkj hk)⟩

variable (hl : s.Leveled level)
include hl

theorem token {w : Setting} {i : Nat} {kind : Kind} (hkind : s.isAt i kind) (hadmits : w.admits kind) :
    s.Keeps level w i (i + 1) := by
  obtain ⟨hbefore, hafter⟩ := hl.of_isAt hkind
  obtain ⟨hrise, hdrop, hcomma⟩ := Setting.cases_of_admits hadmits
  refine ⟨Nat.le_succ i, by omega, fun k hik hki => ?_, fun k hik hki hk => ?_⟩
  · obtain rfl : k = i := by omega
    omega
  · obtain rfl : k = i := by omega
    obtain rfl := kind_eq_of_isAt hkind hk
    rw [hcomma rfl, hbefore]
    exact Nat.le_refl _

theorem group {w : Setting} {i j : Nat} {a b : Kind} (hopen : s.isAt i a) (hmate : a.mate? = some b)
    (hinside : s.Keeps level (.inside a) (i + 1) j) (hclose : s.isAt j b) : s.Keeps level w i (j + 1) := by
  obtain ⟨hadrop, harise, hbdrop, hbrise⟩ := Kind.shift_of_mate? hmate
  obtain ⟨hibefore, hiafter⟩ := hl.of_isAt hopen
  obtain ⟨hjbefore, hjafter⟩ := hl.of_isAt hclose
  have hle := hinside.le
  have hlevel := hinside.level_eq
  have hmargin := w.margin_le
  have hslack := (Setting.inside a).slack_le
  have hout (k : Nat) (hik : i ≤ k) (hkj : k < j + 1) (hk : ¬ (i + 1 ≤ k ∧ k < j)) : k = i ∨ k = j := by omega
  refine ⟨by omega, by omega, fun k hik hkj => ?_, fun k hik hkj hk => ?_⟩
  · by_cases hin : i + 1 ≤ k ∧ k < j
    · have := hinside.deep k hin.1 hin.2
      omega
    · obtain rfl | rfl := hout k hik hkj hin <;> omega
  · by_cases hin : i + 1 ≤ k ∧ k < j
    · have := hinside.comma k hin.1 hin.2 hk
      omega
    · obtain rfl | rfl := hout k hik hkj hin
      · obtain rfl := kind_eq_of_isAt hopen hk
        cases harise
      · obtain rfl := kind_eq_of_isAt hclose hk
        cases hbdrop

end Keeps

theorem RunAt.keeps (hl : s.Leveled level) {w : Setting} {i j : Nat} (h : s.RunAt w i j) : s.Keeps level w i j := by
  induction h with
  | nil => exact .refl _ _
  | token hkind hadmits _ ih => exact (Keeps.token hl hkind hadmits).trans ih
  | group hopen hmate _ hclose _ ihinside ihrest => exact (Keeps.group hl hopen hmate ihinside hclose).trans ihrest

theorem Keeps.closer? (hs : scan source = .ok s) (hl : s.Leveled level) {i j : Nat} {a b : Kind} (hopen : s.isAt i a)
    (hcloser : a.closer? = some b) (hinside : s.Keeps level .brackets (i + 1) j) (hclose : s.isAt j b) :
    s.closer? i = some j := by
  obtain ⟨hadrop, harise, hbdrop, _⟩ := Kind.shift_of_mate? (Kind.mate?_of_closer? hcloser)
  obtain ⟨_, hiafter⟩ := hl.of_isAt hopen
  obtain ⟨hjbefore, _⟩ := hl.of_isAt hclose
  have hle := hinside.le
  have hlevel := hinside.level_eq
  obtain ⟨t, ht, rfl⟩ := isAt_iff.1 hopen
  have hopener : t.kind.isOpener := by cases hk : t.kind <;> rw [hk] at hcloser <;> first | rfl | cases hcloser
  obtain ⟨k, c, hik, hc, hkc, hpair, _, hdepth, _⟩ := exists_partner_of_scan hs ht hopener
  have hpartner : s.closer? i = some k := by
    rw [Stream.closer?, ht]
    exact Option.filter_eq_some_iff.2 ⟨hpair, decide_eq_true hik⟩
  rw [← depthAt_eq ht, ← depthAt_eq hc] at hdepth
  -- Between the two places all is deeper than the bracket, and both places are as deep as it.
  rcases Nat.lt_trichotomy k j with hkj | rfl | hjk
  · have := hinside.deep k hik hkj
    dsimp only [Setting.slack] at this
    omega
  · exact hpartner
  · have := depthAt_lt_of_closer? hs hpartner (k := j) (by omega) hjk
    omega

end Stream

end ModuleLowering
