import ModuleLowering.Proofs.Role.WellFormed
import ModuleLowering.Proofs.Scan.Braces

namespace ModuleLowering

def Kind.precedesTarget : Kind → Bool
  | openParen | openBracket | comma | ellipsis | colon => true
  | kind => kind.declaresVariables

theorem Kind.precedesTarget_of_declaresVariables {kind : Kind} (h : kind.declaresVariables) : kind.precedesTarget := by
  cases kind <;> first | exact h | cases h

theorem Region.Opens.isOpener {region : Region} {a b : Kind} (h : region.Opens a)
    (hcloser : region.closer? = some b) : a.isOpener = true := by
  cases region with
  | topLevel | templateExpr | jsxTag | jsxChildren => cases hcloser
  | _ => obtain rfl := h; rfl

theorem Kind.isOpener_of_isCloser {kind : Kind} (h : kind.isCloser = true) : kind.isOpener = false := by
  cases kind <;> first | rfl | cases h

namespace Mates

variable {tokens : Array Token} {i j : Nat} (h : Mates tokens i j)
include h

theorem isOpener {a : Token} (ha : tokens[i]? = some a) : a.kind.isOpener = true := by
  obtain ⟨b, _, _, hb, _, hopens, hcloser, _⟩ := h.brackets
  rw [ha] at hb
  cases hb
  exact hopens.isOpener hcloser

theorem isCloser {b : Token} (hb : tokens[j]? = some b) : b.kind.isCloser = true := by
  obtain ⟨_, c, _, _, hc, _, hcloser, _⟩ := h.brackets
  rw [hb] at hc
  cases hc
  exact Region.isCloser_of_closer? hcloser

end Mates

theorem Mates.closer? {s : Stream} {i j : Nat} (h : Mates s.tokens i j) : s.closer? i = some j := by
  obtain ⟨a, _, _, ha, _, _, _, _, _, hap, _⟩ := h.brackets
  simp [Stream.closer?, ha, Token.closer?, hap, h.lt]

namespace Stream

def beginsTarget (s : Stream) (i : Nat) : Bool := (s.before? i).any (·.kind.precedesTarget)

theorem beginsTarget_succ {s : Stream} {i : Nat} {kind : Kind} (h : s.isAt i kind)
    (hkind : kind.precedesTarget) : s.beginsTarget (i + 1) := by
  simp only [isAt, kind?, decide_eq_true_eq, Option.map_eq_some_iff] at h
  obtain ⟨t, ht, rfl⟩ := h
  rw [beginsTarget, before?_succ, ht]
  exact hkind

theorem isAt_skipToComma {s : Stream} {i stop : Nat} (h : s.skipToComma i stop < stop) :
    s.isAt (s.skipToComma i stop) .comma := by
  fun_induction skipToComma s i stop with
  | case1 => assumption
  | case2 _ _ _ ih => exact ih h
  | case3 => omega

theorem beginsTarget_nextElement {s : Stream} {i stop : Nat} (h : s.nextElement i stop < stop) :
    s.beginsTarget (s.nextElement i stop) := by
  unfold nextElement at h ⊢
  exact beginsTarget_succ (isAt_skipToComma (by omega)) rfl

structure PatternAt (s : Stream) (i j : Nat) : Prop where
  closer : s.closer? i = some j
  brace : s.isAt i .openBrace
  begins : s.beginsTarget i

end Stream

def Mark.Fits (s : Stream) : Mark → Prop
  | .target _ | .name _ => True
  | .pattern i j => s.PatternAt i j

namespace Stream

mutual

theorem fits_of_mem_targetMarks {s : Stream} {i stop : Nat} {m : Mark} (hi : i < stop → s.beginsTarget i)
    (h : m ∈ s.targetMarks i stop) : m.Fits s := by
  unfold targetMarks at h
  split at h
  · rename_i hlt
    split at h
    · rename_i hkind
      exact fits_of_mem_targetMarks (fun _ => beginsTarget_succ (decide_eq_true hkind) rfl) h
    · rw [List.mem_singleton.1 h]
      trivial
    · rename_i hkind
      split at h
      · rename_i j hj
        rcases List.mem_cons.1 h with rfl | h
        · exact ⟨hj, decide_eq_true hkind, hi hlt.1⟩
        · exact fits_of_mem_objectMarks h
      · cases h
    · rename_i hkind
      split at h
      · exact fits_of_mem_listMarks (fun _ => beginsTarget_succ (decide_eq_true hkind) rfl) h
      · cases h
    · cases h
  · cases h
termination_by 2 * (s.tokens.size - i)

theorem fits_of_mem_listMarks {s : Stream} {i stop : Nat} {m : Mark} (hi : i < stop → s.beginsTarget i)
    (h : m ∈ s.listMarks i stop) : m.Fits s := by
  unfold listMarks at h
  split at h
  · rename_i hlt
    have := s.lt_nextElement (Nat.le_of_lt hlt.1)
    rcases List.mem_append.1 h with h | h
    · exact fits_of_mem_targetMarks hi h
    · exact fits_of_mem_listMarks beginsTarget_nextElement h
  · cases h
termination_by 2 * (s.tokens.size - i) + 1

theorem fits_of_mem_objectMarks {s : Stream} {i stop : Nat} {m : Mark} (h : m ∈ s.objectMarks i stop) :
    m.Fits s := by
  unfold objectMarks at h
  dsimp only at h
  split at h
  · rename_i hlt
    have hkey := s.lt_afterKey i
    split at h
    · rename_i hkind
      have := s.lt_nextElement (show i + 1 ≤ stop by omega)
      rcases List.mem_append.1 h with h | h
      · exact fits_of_mem_targetMarks (fun _ => beginsTarget_succ hkind rfl) h
      · exact fits_of_mem_objectMarks h
    · split at h
      · rename_i hcolon
        have := s.lt_nextElement (show s.afterKey i + 1 ≤ stop by omega)
        rcases List.mem_append.1 h with h | h
        · exact fits_of_mem_targetMarks (fun _ => beginsTarget_succ hcolon.2 rfl) h
        · exact fits_of_mem_objectMarks h
      · have := s.min_le_skipToComma (s.afterKey i) stop
        rcases List.mem_append.1 h with h | h
        · split at h
          · rw [List.mem_singleton.1 h]
            trivial
          · cases h
        · exact fits_of_mem_objectMarks h
  · cases h
termination_by 2 * (s.tokens.size - i) + 1

end

theorem fits_of_mem_declaratorMarks {s : Stream} {i : Nat} {m : Mark} (hi : s.beginsTarget i)
    (h : m ∈ s.declaratorMarks i) : m.Fits s := by
  fun_induction declaratorMarks s i with
  | case1 i stop hcomma ih =>
    rcases List.mem_append.1 h with h | h
    · exact fits_of_mem_targetMarks (fun _ => hi) h
    · exact ih (beginsTarget_succ hcomma rfl) h
  | case2 => exact fits_of_mem_targetMarks (fun _ => hi) h

theorem fits_of_mem_siteMarks {s : Stream} {i : Nat} {m : Mark} (h : m ∈ s.siteMarks i) : m.Fits s := by
  unfold siteMarks at h
  split at h
  · cases h
  · rename_i t ht
    have hat : s.isAt i t.kind := by simp [isAt, kind?, ht]
    split at h
    · rename_i hkind
      split at h
      · split at h
        · exact fits_of_mem_listMarks (fun _ => beginsTarget_succ (hkind ▸ hat) rfl) h
        · cases h
      · cases h
    · split at h
      · rw [List.mem_singleton.1 h]
        trivial
      · cases h
    · rename_i word hkind
      split at h
      · exact fits_of_mem_declaratorMarks (beginsTarget_succ (hkind ▸ hat) ‹_›) h
      · cases h
    · cases h

def group? (s : Stream) (i : Nat) : Option Region := s.tokens[i]?.bind (·.group)

theorem group?_update_of_ne {s : Stream} {i k : Nat} {f : Token → Token} (h : i ≠ k) :
    (s.update i f).group? k = s.group? k := by
  simp [group?, update, Array.getElem?_modify, h]

theorem group?_update {s : Stream} {f : Token → Token} (hf : ∀ t, (f t).group = t.group) (i k : Nat) :
    (s.update i f).group? k = s.group? k := by
  by_cases h : i = k
  · subst h
    unfold group? update
    rw [Array.getElem?_modify, if_pos rfl]
    cases s.tokens[i]? <;> simp [hf]
  · exact group?_update_of_ne h

theorem group?_setGroup {s : Stream} {i : Nat} (hi : i < s.tokens.size) (region : Region) :
    (s.setGroup i region).group? i = some region := by
  simp [group?, setGroup, update, Array.getElem?_modify, Array.getElem?_eq_getElem hi]

def role? (s : Stream) (i : Nat) : Option Role := s.tokens[i]?.bind (·.role)

theorem role?_update_of_ne {s : Stream} {i k : Nat} {f : Token → Token} (h : i ≠ k) :
    (s.update i f).role? k = s.role? k := by
  simp [role?, update, Array.getElem?_modify, h]

theorem role?_setRole {s : Stream} {i : Nat} (hi : i < s.tokens.size) (role : Role) :
    (s.setRole i role).role? i = some role := by
  simp [role?, setRole, update, Array.getElem?_modify, Array.getElem?_eq_getElem hi]

theorem group?_foldl_enterPattern (is : List Nat) (s : Stream) (k : Nat) :
    (is.foldl enterPattern s).group? k = s.group? k := by
  induction is generalizing s with
  | nil => rfl
  | cons i is ih =>
    rw [List.foldl_cons, ih]
    refine group?_update (fun t => ?_) i k
    split <;> rfl

structure Regrouped (r s : Stream) : Prop where
  outline : s.outline = r.outline
  groups : ∀ i j, r.closer? i = some j →
    (s.group? i = r.group? i ∧ s.group? j = r.group? j) ∨
      (r.PatternAt i j ∧ s.group? i = some .pattern ∧ s.group? j = some .pattern)

theorem patternAt_outline {r s : Stream} (ho : s.outline = r.outline) {i j : Nat} (h : s.PatternAt i j) :
    r.PatternAt i j where
  closer := by rw [← closer?_outline ho]; exact h.closer
  brace := by rw [← isAt_outline ho]; exact h.brace
  begins := by
    have hbegins := h.begins
    unfold beginsTarget before? at hbegins ⊢
    split at hbegins
    · cases hbegins
    · rename_i hi
      obtain ⟨t, ht, hkind⟩ := (Option.any_eq_true _ _).1 hbegins
      obtain ⟨u, hu, hut⟩ := exists_of_outline ho ht
      rw [if_neg hi, hu]
      have hk := congrArg Token.kind hut
      rw [Token.kind_outline, Token.kind_outline] at hk
      simpa [hk] using hkind

theorem mates_of_closer? {r : Stream} (h : Bracketed r.tokens []) {i j : Nat} (hj : r.closer? i = some j) :
    Mates r.tokens i j := by
  obtain ⟨t, ht, hpair⟩ := Option.bind_eq_some_iff.1 hj
  have hlt := lt_of_closer? hj
  rcases h.mates i t j ht (Option.filter_eq_some_iff.1 hpair).1 with hmates | hmates
  · exact hmates
  · have := hmates.lt
    omega

theorem closer?_iff_pair {source : List Char} {s : Stream} (h : scan source = .ok s) {i j : Nat} {b : Token}
    (hb : s.tokens[j]? = some b) (hk : b.kind.isOpener = false) : s.closer? i = some j ↔ b.pair = some i := by
  obtain ⟨r, hr, ho⟩ := outline_of_scan h
  obtain ⟨c, hc, hcb⟩ := exists_of_outline ho hb
  have hpair : c.pair = b.pair := congrArg (fun t => t.pair) hcb
  have hkind : c.kind = b.kind := congrArg (fun t => t.kind) hcb
  have hbracketed := bracketed_of_read hr
  rw [closer?_outline ho, ← hpair]
  constructor
  · intro hij
    obtain ⟨_, d, _, _, hd, _, _, _, _, _, hdp, _⟩ := (mates_of_closer? hbracketed hij).brackets
    rw [hc] at hd
    cases hd
    exact hdp
  · intro hp
    rcases hbracketed.mates j c i hc hp with hmates | hmates
    · rw [← hkind, hmates.isOpener hc] at hk
      cases hk
    · exact hmates.closer?

theorem closer?_disjoint {r : Stream} (h : Bracketed r.tokens []) {i j a b : Nat}
    (hij : r.closer? i = some j) (hab : r.closer? a = some b) (hne : i ≠ a) :
    j ≠ b ∧ i ≠ b ∧ j ≠ a := by
  obtain ⟨t, u, _, ht, hu, _, _, _, _, htp, hup, _⟩ := (mates_of_closer? h hij).brackets
  obtain ⟨v, w, _, hv, hw, _, _, _, _, hvp, hwp, _⟩ := (mates_of_closer? h hab).brackets
  have hlt := lt_of_closer? hij
  have hlt' := lt_of_closer? hab
  refine ⟨?_, ?_, ?_⟩
  · rintro rfl
    rw [hu] at hw
    cases hw
    rw [hup] at hwp
    exact hne (Option.some.inj hwp)
  · rintro rfl
    rw [ht] at hw
    cases hw
    rw [htp] at hwp
    have := Option.some.inj hwp
    omega
  · rintro rfl
    rw [hu] at hv
    cases hv
    rw [hup] at hvp
    have := Option.some.inj hvp
    omega

theorem regrouped_pattern {r s : Stream} (h : Bracketed r.tokens []) (hs : Regrouped r s) {a b : Nat}
    (hab : s.PatternAt a b) : Regrouped r (s.mark (.pattern a b)) := by
  have hr := patternAt_outline hs.outline hab
  have hb : b < s.tokens.size := by
    obtain ⟨_, u, _, _, hu, _⟩ := (mates_of_closer? h hr.closer).brackets
    have hsize := congrArg (fun o => o.tokens.size) hs.outline
    simp only [outline, Array.size_map] at hsize
    rw [hsize]
    exact lt_size_of_getElem? hu
  have hlt := lt_of_closer? hr.closer
  refine ⟨(s.outline_mark _).trans hs.outline, fun i j hij => ?_⟩
  unfold mark
  rw [group?_foldl_enterPattern, group?_foldl_enterPattern]
  by_cases hi : i = a
  · subst hi
    obtain rfl : j = b := Option.some.inj (hij.symm.trans hr.closer)
    refine .inr ⟨hr, ?_, group?_setGroup (by simpa [setGroup, update] using hb) .pattern⟩
    exact (group?_update_of_ne (Nat.ne_of_gt hlt)).trans (group?_setGroup (Nat.lt_trans hlt hb) .pattern)
  · obtain ⟨hjb, hib, hja⟩ := closer?_disjoint h hij hr.closer hi
    have hkeep (k : Nat) (hka : k ≠ a) (hkb : k ≠ b) :
        ((s.setGroup a .pattern).setGroup b .pattern).group? k = s.group? k :=
      (group?_update_of_ne hkb.symm).trans (group?_update_of_ne hka.symm)
    rw [hkeep i hi hib, hkeep j hja hjb]
    exact hs.groups i j hij

theorem fits_outline {r s : Stream} (ho : s.outline = r.outline) {m : Mark} (h : m.Fits s) : m.Fits r := by
  cases m with
  | target | name => trivial
  | pattern => exact patternAt_outline ho h

section

variable {r : Stream} {P : Stream → Prop}
  (hrole : ∀ s i (f : Token → Token), (∀ t, ∃ role, f t = { t with role }) → P s → P (s.update i f))
  (hpattern : ∀ s a b, s.outline = r.outline → s.PatternAt a b → P s → P (s.mark (.pattern a b)))

include hrole in
theorem kept_by_assignRoles {s : Stream} (hs : P s) (is : List Nat) : P (is.foldl assignRole s) := by
  induction is generalizing s with
  | nil => exact hs
  | cons i is ih =>
    apply ih
    unfold assignRole
    split
    · split
      · exact hrole s i _ (fun _ => ⟨_, rfl⟩) hs
      · exact hs
    · exact hs

include hrole hpattern

theorem kept_by_mark {s : Stream} (ho : s.outline = r.outline) (hs : P s) {m : Mark} (hm : m.Fits s) :
    P (s.mark m) := by
  cases m with
  | target i =>
    refine hrole s i _ (fun t => ?_) hs
    split
    · exact ⟨_, rfl⟩
    · exact ⟨t.role, rfl⟩
  | name i => exact hrole s i _ (fun _ => ⟨_, rfl⟩) hs
  | pattern a b => exact hpattern s a b ho hm hs

theorem kept_by_marks {s : Stream} (ho : s.outline = r.outline) (hs : P s) {ms : List Mark}
    (hms : ∀ m ∈ ms, m.Fits r) : P (ms.foldl mark s) := by
  induction ms generalizing s with
  | nil => exact hs
  | cons m ms ih =>
    have hm := fits_outline ho.symm (hms m List.mem_cons_self)
    exact ih ((s.outline_mark m).trans ho) (kept_by_mark hrole hpattern ho hs hm) fun m' hm' =>
      hms m' (List.mem_cons_of_mem m hm')

theorem kept_by_markSites {s : Stream} (ho : s.outline = r.outline) (hs : P s) (is : List Nat) :
    P (is.foldl markSite s) := by
  induction is generalizing s with
  | nil => exact hs
  | cons i is ih =>
    exact ih ((s.outline_markSite i).trans ho)
      (kept_by_marks hrole hpattern ho hs fun m hm => fits_outline ho (fits_of_mem_siteMarks hm))

theorem kept_by_roles (hr : P r) : P r.assignRoles.markSites :=
  kept_by_markSites hrole hpattern (outline_foldl outline_assignRole _ r) (kept_by_assignRoles hrole hr _) _

end

theorem Regrouped.update {r s : Stream} (hs : Regrouped r s) (i : Nat) {f : Token → Token}
    (hf : ∀ t, ∃ role, f t = { t with role }) : Regrouped r (s.update i f) where
  outline := by
    refine (s.outline_update i fun t => ?_).trans hs.outline
    obtain ⟨_, ht⟩ := hf t
    rw [ht]
    rfl
  groups a b hab := by
    have hgroup (t : Token) : (f t).group = t.group := by
      obtain ⟨_, ht⟩ := hf t
      rw [ht]
    rw [group?_update hgroup, group?_update hgroup]
    exact hs.groups a b hab

theorem regrouped_of_scan {source : List Char} {s : Stream} (h : scan source = .ok s) :
    ∃ r, Stream.read source = .ok r ∧ Regrouped r s := by
  obtain ⟨r, hr, rfl⟩ := map_eq_ok_iff.1 h
  refine ⟨r, hr, kept_by_roles (fun s i _ hf hs => hs.update i hf) ?_ ⟨rfl, fun _ _ _ => .inl ⟨rfl, rfl⟩⟩⟩
  exact fun s a b _ hab hs => regrouped_pattern (bracketed_of_read hr) hs hab

theorem group_eq_of_closer? {source : List Char} {s : Stream} (h : scan source = .ok s) {i j : Nat}
    {a b : Token} (hij : s.closer? i = some j) (ha : s.tokens[i]? = some a) (hb : s.tokens[j]? = some b) :
    a.group = b.group := by
  obtain ⟨r, hr, hs⟩ := regrouped_of_scan h
  rw [closer?_outline hs.outline] at hij
  obtain ⟨a', b', region, ha', hb', _, _, hga, hgb, _⟩ := (mates_of_closer? (bracketed_of_read hr) hij).brackets
  have hgroup : s.group? i = s.group? j := by
    rcases hs.groups i j hij with ⟨hi, hj⟩ | ⟨_, hi, hj⟩
    · rw [hi, hj, group?, group?, ha', hb', Option.bind_some, Option.bind_some, hga, hgb]
    · rw [hi, hj]
  rwa [group?, group?, ha, hb] at hgroup

theorem block_of_brace_after_paren {source : List Char} {s : Stream} (h : scan source = .ok s) {i : Nat}
    {p a : Token} (hp : s.tokens[i]? = some p) (ha : s.tokens[i + 1]? = some a) (hparen : p.kind = .closeParen)
    (hbrace : a.kind = .openBrace) (hcode : a.context.isJsx = false) :
    a.group = some .classBody ∨ a.group = some .block := by
  obtain ⟨r, hr, hs⟩ := regrouped_of_scan h
  obtain ⟨p', hp', hpo⟩ := exists_of_outline hs.outline hp
  obtain ⟨a', ha', hao⟩ := exists_of_outline hs.outline ha
  have hkp := congrArg Token.kind hpo
  have hka := congrArg Token.kind hao
  have hca := congrArg Token.context hao
  rw [Token.kind_outline, Token.kind_outline] at hkp hka
  have hcode' : a'.context.isJsx = false := by
    simp only [Token.outline] at hca
    revert hca hcode
    cases a.context <;> cases a'.context <;> simp [Region.isJsx]
  have hbat : r.isAt (i + 1) .openBrace := by simp [isAt, kind?, ha', hka, hbrace]
  obtain ⟨j, hj, _⟩ := brace_of_bracketed (bracketed_of_read hr) hbat
  have hread := (braceFollows_of_read hr i p' a' hp' ha').block (hkp.trans hparen) (hka.trans hbrace) hcode'
  rcases hs.groups (i + 1) j hj with ⟨hgroup, _⟩ | ⟨hpattern, _⟩
  · rw [group?, group?, ha, ha', Option.bind_some, Option.bind_some] at hgroup
    rwa [hgroup]
  · have hbegins := hpattern.begins
    rw [beginsTarget, before?_succ, hp', Option.any_some, hkp, hparen] at hbegins
    cases hbegins

end Stream

end ModuleLowering
