import ModuleLowering.Proofs.Role.Coverage
import ModuleLowering.Proofs.Role.Marked
import ModuleLowering.Proofs.Statement.Declarators

/-!
The two ends of an initializer: where binding sites let it end, and where statements do. They differ when a separator
stands in a JSX tag or in the substitution of a template, where no bracket hides it.
-/

namespace ModuleLowering

namespace Stream

/-- A token in no bracket at which binding sites let an initializer end, although it is not at module level. -/
structure Strays (s : Stream) (v : Nat) : Prop where
  closed : ∀ a b, s.closer? a = some b → a < v → b < v
  ends : ∃ t, s.tokens[v]? = some t ∧ t.isTopLevel = false ∧ s.endsInitializer v t

theorem strays_iff {s : Stream} {v : Nat} : s.Strays v ↔ (∀ a < v, (s.closer? a).all (· < v)) ∧
    s.tokens[v]?.any fun t => !t.isTopLevel && s.endsInitializer v t := by
  constructor
  · rintro ⟨hclosed, t, ht, htop, hends⟩
    refine ⟨fun a hav => ?_, by simp [ht, htop, hends]⟩
    cases hab : s.closer? a with
    | none => rfl
    | some b => simpa using hclosed a b hab hav
  · rintro ⟨hclosed, hends⟩
    obtain ⟨t, ht, hends⟩ := (Option.any_eq_true _ _).1 hends
    rw [Bool.and_eq_true, Bool.not_eq_true'] at hends
    exact ⟨fun a b hab hav => by simpa [hab] using hclosed a hav, t, ht, hends⟩

instance (s : Stream) (v : Nat) : Decidable (s.Strays v) := decidable_of_iff _ strays_iff.symm

variable {source : List Char} {s m : Stream}

theorem closer?_eq_none (hs : scan source = .ok s) {i : Nat} {kind : Kind} (hi : s.isAt i kind)
    (hk : kind.isOpener = false) : s.closer? i = none := by
  obtain ⟨r, hr, ho⟩ := outline_of_scan hs
  rw [isAt_outline ho] at hi
  obtain ⟨t, ht, rfl⟩ := isAt_iff.1 hi
  rw [closer?_outline ho]
  cases hc : r.closer? i with
  | none => rfl
  | some j =>
    rw [(mates_of_closer? (bracketed_of_read hr) hc).isOpener ht] at hk
    cases hk

theorem closed_succ (hs : scan source = .ok s) {i : Nat} {kind : Kind} (hi : s.isAt i kind) (hk : kind.isOpener = false)
    (hdepth : s.depthAt i = 0) : ∀ a b, s.closer? a = some b → a < i + 1 → b < i + 1 := by
  intro a b hab hai
  by_contra hbi
  rcases Nat.lt_or_eq_of_le (Nat.le_of_lt_succ hai) with hai | rfl
  · have := depthAt_lt_of_closer? hs hab hai (by omega)
    omega
  · rw [closer?_eq_none hs hi hk] at hab
    cases hab

theorem lt_skip_of_closer? (hs : scan source = .ok s) {i a b : Nat} (hab : s.closer? a = some b) (hia : i < a)
    (ha : a < s.skip i) : b < s.skip i := by
  unfold skip at ha ⊢
  split at ha
  · rename_i j hj
    rcases Nat.lt_or_eq_of_le (Nat.le_of_lt_succ ha) with haj | rfl
    · exact Nat.lt_succ_of_lt ((balanced_of_scan hs).nested i j a b hj hab hia haj)
    · obtain ⟨⟨region, kind, hcloser, hat⟩, _⟩ := (wellFormed_of_scan hs).closes i a hj
      rw [closer?_eq_none hs hat (Region.isStructural_of_closer? hcloser).2] at hab
      cases hab
  · omega

theorem closed_skip (hs : scan source = .ok s) {v : Nat} (hclosed : ∀ a b, s.closer? a = some b → a < v → b < v) :
    ∀ a b, s.closer? a = some b → a < s.skip v → b < s.skip v := by
  intro a b hab hav
  have hskip := s.lt_skip v
  rcases Nat.lt_trichotomy a v with hlt | rfl | hgt
  · have := hclosed a b hab hlt
    omega
  · rw [skip, hab]
    exact Nat.lt_succ_self b
  · exact lt_skip_of_closer? hs hab hgt hav

theorem pair_eq_false_of_closed (hs : scan source = .ok s) {v : Nat}
    (hclosed : ∀ a b, s.closer? a = some b → a < v → b < v) {t : Token} (ht : s.tokens[v]? = some t) :
    t.pair.any (· < v) = false := by
  rw [← Bool.not_eq_true]
  intro hpair
  obtain ⟨a, ha, hav⟩ := (Option.any_eq_true _ _).1 hpair
  have hav : a < v := of_decide_eq_true hav
  by_cases hopener : t.kind.isOpener
  · obtain ⟨j, _, hvj, _, _, hj, _⟩ := exists_partner_of_scan hs ht hopener
    rw [ha] at hj
    cases hj
    omega
  · have := hclosed a v ((closer?_iff_pair hs ht (by simpa using hopener)).2 ha) hav
    omega

theorem endsExpressionAt_of_endsInitializer {i v : Nat} (hequals : s.isAt i .equals) (hiv : i < v) {t : Token}
    (htop : t.isTopLevel) (hpair : t.pair.any (· < v) = false) (hends : s.endsInitializer v t) :
    s.endsExpressionAt (i + 1) v t := by
  simp only [endsExpressionAt, htop, Bool.true_and]
  simp only [endsInitializer, hpair, Bool.or_false, Bool.or_eq_true (_ || _), Bool.and_eq_true] at hends
  rw [Bool.or_eq_true]
  refine hends.imp_right ?_
  rintro ⟨⟨hline, hbefore⟩, hword⟩
  have hstart : i + 1 < v := by
    refine Nat.lt_of_le_of_ne hiv ?_
    rintro rfl
    obtain ⟨e, he, hkind⟩ := isAt_iff.1 hequals
    rw [before?_succ, he, Option.any_some, Token.endsExpression, hkind] at hbefore
    cases hbefore
  have hstops : t.continuesExpression = false := by
    unfold Token.continuesExpression
    split at hword
    · rename_i hkind
      rw [hkind]
    · rename_i word hkind
      rw [hkind]
      cases word <;> first | rfl | cases hword
    · cases hword
  rw [hline, hbefore, hstops, decide_eq_true hstart]
  rfl

theorem strays_of_endsInitializer (hs : scan source = .ok s) {i v : Nat} (hequals : s.isAt i .equals)
    (hiv : i < v) (hv : v < s.expressionEnd (i + 1)) (hclosed : ∀ a b, s.closer? a = some b → a < v → b < v) {t : Token}
    (ht : s.tokens[v]? = some t) (hends : s.endsInitializer v t) : s.Strays v := by
  refine ⟨hclosed, t, ht, ?_, hends⟩
  rw [← Bool.not_eq_true]
  intro htop
  rw [expressionEnd] at hv
  obtain ⟨t', ht', hgoes⟩ := exists_of_lt_expressionEndFrom hiv hv
  cases Option.some.inj (ht.symm.trans ht')
  rw [endsExpressionAt_of_endsInitializer hequals hiv htop (pair_eq_false_of_closed hs hclosed ht) hends] at hgoes
  cases hgoes

theorem Underlies.before {m s : Stream} (h : m.Underlies s) {i : Nat} (hm : (m.before? i).any (·.endsExpression)) :
    (s.before? i).any (·.endsExpression) := by
  unfold before? at hm ⊢
  split at hm
  · cases hm
  · rename_i hi
    rw [if_neg hi]
    exact h.ends (i - 1) hm

theorem Underlies.endsInitializer {m s : Stream} (h : m.Underlies s) {v : Nat} {u t : Token}
    (hu : m.tokens[v]? = some u) (ht : s.tokens[v]? = some t) (hends : m.endsInitializer v u) :
    s.endsInitializer v t := by
  obtain ⟨u', hu', hout⟩ := exists_of_outline h.outline.symm ht
  rw [hu] at hu'
  cases hu'
  obtain ⟨hkind, hpair, _⟩ := same_of_outline hout
  have hline : u.lineBreak = t.lineBreak := congrArg (·.lineBreak) hout
  unfold Stream.endsInitializer at hends ⊢
  rw [hkind, hpair, hline] at hends
  simp only [Bool.or_eq_true, Bool.and_eq_true] at hends ⊢
  exact hends.imp_right fun ⟨⟨hline, hbefore⟩, hword⟩ => ⟨⟨hline, h.before hbefore⟩, hword⟩

theorem topLevel_of_comma {start : Nat} (hcomma : s.isAt (s.expressionEnd start) .comma) :
    ∃ t, s.tokens[s.expressionEnd start]? = some t ∧ t.isTopLevel := by
  obtain ⟨t, ht, _⟩ := isAt_iff.1 hcomma
  have hends := expressionEndFrom_stops start start ht
  rw [endsExpressionAt, Bool.and_eq_true] at hends
  exact ⟨t, ht, hends.1⟩

theorem depthAt_of_isTopLevel {i : Nat} {t : Token} (ht : s.tokens[i]? = some t) (htop : t.isTopLevel) :
    s.depthAt i = 0 := by
  rw [Token.isTopLevel, Bool.and_eq_true, decide_eq_true_eq] at htop
  rw [depthAt_eq ht, htop.1]

theorem initializerEnd_eq_comma (hs : scan source = .ok s) (hm : m.Underlies s) {c v : Nat} (hcomma : s.isAt c .comma)
    (hdepth : s.depthAt c = 0) (hclosed : ∀ a b, s.closer? a = some b → a < v → b < v) (hvc : v ≤ c)
    (hgoes : ∀ w t, v ≤ w → w < c → (∀ a b, s.closer? a = some b → a < w → b < w) → s.tokens[w]? = some t →
      s.endsInitializer w t = false) : m.initializerEnd v = c := by
  have hsize := lt_size_of_isAt hcomma
  fun_induction initializerEnd m v with
  | case1 v hnone =>
    rw [Array.getElem?_eq_none_iff, size_of_outline hm.outline] at hnone
    omega
  | case2 v u hu hends =>
    obtain ⟨t, ht, _⟩ := exists_of_outline hm.outline hu
    rcases Nat.lt_or_eq_of_le hvc with hlt | rfl
    · have hends := hm.endsInitializer hu ht hends
      rw [hgoes v t (Nat.le_refl v) hlt hclosed ht] at hends
      cases hends
    · rfl
  | case3 v u hu hnot ih =>
    have hlt : v < c := by
      refine Nat.lt_of_le_of_ne hvc ?_
      rintro rfl
      rw [← isAt_outline hm.outline] at hcomma
      obtain ⟨u', hu', hk⟩ := isAt_iff.1 hcomma
      rw [hu] at hu'
      cases hu'
      exact hnot (by simp [endsInitializer, hk])
    have hskip := s.lt_skip v
    rw [(Congruent.of_outline hm.outline).skip_eq] at ih ⊢
    refine ih (closed_skip hs hclosed) (skip_le_comma hs hcomma hlt (by omega)) fun w t hvw => hgoes w t (by omega)

theorem initializerEnd_eq (hs : scan source = .ok s) (hm : m.Underlies s) {i : Nat} (hequals : s.isAt i .equals)
    (hdepth : s.depthAt i = 0) (hcomma : s.isAt (s.expressionEnd (i + 1)) .comma)
    (hstray : ∀ v, i < v → v < s.expressionEnd (i + 1) → ¬ s.Strays v) :
    m.initializerEnd (i + 1) = s.expressionEnd (i + 1) := by
  obtain ⟨last, hlast, htop⟩ := topLevel_of_comma hcomma
  refine initializerEnd_eq_comma hs hm hcomma (depthAt_of_isTopLevel hlast htop) (closed_succ hs hequals rfl hdepth)
    (s.le_expressionEnd (i + 1)) fun w t hiw hw hclosed ht => ?_
  rw [← Bool.not_eq_true]
  intro hends
  exact hstray w hiw hw (strays_of_endsInitializer hs hequals hiw hw hclosed ht hends)

end Stream

end ModuleLowering
