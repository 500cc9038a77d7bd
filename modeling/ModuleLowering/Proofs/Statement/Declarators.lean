import ModuleLowering.Proofs.Role.Groups
import ModuleLowering.Proofs.Role.Tags
import ModuleLowering.Proofs.Statement.ExportForm

namespace ModuleLowering

open Text

namespace Stream

variable {s : Stream} {source : List Char}

theorem expressionEndFrom_stops (start i : Nat) {u : Token} (hu : s.tokens[s.expressionEndFrom start i]? = some u) :
    s.endsExpressionAt start (s.expressionEndFrom start i) u := by
  fun_induction expressionEndFrom s start i with
  | case1 i hnone =>
    rw [hnone] at hu
    cases hu
  | case2 i t ht hends =>
    rw [ht] at hu
    cases hu
    exact hends
  | case3 _ _ _ _ ih => exact ih hu

inductive EndsDeclarators (s : Stream) (k : Nat) (t : Token) : Prop
  | name (hk : t.kind = .identifier) (hbegins : s.beginsTarget k)
  | pattern (hk : t.kind.isCloser)
  | expression (hnext : ∀ u, s.tokens[k + 1]? = some u → u.isTopLevel)

theorem WellFormed.endsDeclarators_of_target (hs : s.WellFormed source) {i k : Nat} (hbegins : s.beginsTarget i)
    {names : List String} {simple : Bool} (h : s.declaratorTarget? i = some (names, simple, k + 1)) {t : Token}
    (ht : s.tokens[k]? = some t) : s.EndsDeclarators k t := by
  have hpattern (h : (s.closer? i).map (fun j => (s.patternNames i, false, j + 1)) = some (names, simple, k + 1)) :
      s.EndsDeclarators k t := by
    obtain ⟨c, hc, he⟩ := Option.map_eq_some_iff.1 h
    cases he
    obtain ⟨region, kind, hcloser, hat⟩ := (hs.closes i k hc).1
    refine .pattern ?_
    rw [kind_eq_of_isAt (isAt_iff.2 ⟨t, ht, rfl⟩) hat]
    exact Region.isCloser_of_closer? hcloser
  unfold declaratorTarget? at h
  split at h
  · cases h
  · rename_i first hfirst
    split at h
    · rename_i hk
      cases h
      rw [hfirst] at ht
      cases ht
      exact .name hk hbegins
    · exact hpattern h
    · exact hpattern h
    · cases h

theorem WellFormed.endsDeclarators (hs : s.WellFormed source) {i j : Nat} {ds : List Declarator}
    (hbegins : s.beginsTarget i) (h : s.declarators i = .ok (ds, j)) :
    ∃ k t, j = k + 1 ∧ s.tokens[k]? = some t ∧ s.EndsDeclarators k t := by
  have hpasses := hs.passes_declarators (O := fun _ => True) i fun _ _ _ _ _ => trivial
  rw [h] at hpasses
  change s.Passes _ i j at hpasses
  fun_induction declarators s i generalizing ds j with
  | case1 => cases h
  | case2 => cases h
  | case3 i names simple n ht e k hi _ hc =>
    rename_i ih
    obtain ⟨⟨rest, n'⟩, hn, he⟩ := map_eq_ok_iff.1 h
    cases he
    have hlt := lt_of_declaratorTarget? ht
    have hle := le_of_initializer hi
    exact ih (beginsTarget_succ hc rfl) hn fun m hm hmj => hpasses m (by omega) hmj
  | case4 i names simple n ht e k hi =>
    cases h
    have hlt := lt_of_declaratorTarget? ht
    have hle := le_of_initializer hi
    obtain ⟨l, rfl⟩ : ∃ l, k = l + 1 := ⟨k - 1, by omega⟩
    obtain ⟨t, hlast, _⟩ := hpasses l (by omega) (Nat.lt_add_one l)
    refine ⟨l, t, rfl, hlast, ?_⟩
    by_cases hequals : s.isAt n .equals
    · rw [initializer_of_equals hequals] at hi
      apply of_ite_eq_ok hi (fun _ hi => by cases hi)
      intro _ hi
      refine .expression fun u hu => ?_
      have hstop : s.expressionEnd (n + 1) = l + 1 := (Prod.mk.inj (Except.ok.inj hi)).2
      rw [← hstop] at hu
      have hends := expressionEndFrom_stops (n + 1) (n + 1) hu
      rw [endsExpressionAt, Bool.and_eq_true] at hends
      exact hends.1
    · rw [initializer, if_neg hequals] at hi
      obtain rfl : n = l + 1 := (Prod.mk.inj (Except.ok.inj hi)).2
      exact hs.endsDeclarators_of_target hbegins ht hlast

theorem EndsDeclarators.not_jsx (hs : scan source = .ok s) {k : Nat} {t : Token} (ht : s.tokens[k]? = some t)
    (h : s.EndsDeclarators k t) : t.kind ≠ .jsxText ∧ (t.kind = .identifier → t.role ≠ some .jsxTag) := by
  have hcode (hsteady : t.kind.isSteady) (hnext : ∀ u, s.tokens[k + 1]? = some u → u.isTopLevel) :
      t.context.isJsx = false := by
    refine isJsx_of_scan hs ht hsteady fun u hu => ?_
    have htop := hnext u hu
    simp only [Token.isTopLevel, Bool.and_eq_true, decide_eq_true_eq] at htop
    rw [htop.2]
    rfl
  constructor
  · intro hk
    cases h with
    | name hname =>
      rw [hk] at hname
      cases hname
    | pattern hcloser =>
      rw [hk] at hcloser
      cases hcloser
    | expression hnext =>
      have hjsx := isJsx_of_jsxText hs ht hk
      rw [hcode (by rw [hk]; rfl) hnext] at hjsx
      cases hjsx
  · intro hk hrole
    obtain ⟨hcontext, n, rfl, hopens⟩ := tagNames_of_scan hs k t ht hrole
    cases h with
    | name _ hbegins =>
      rw [beginsTarget, before?_succ] at hbegins
      obtain ⟨p, hp, hprecedes⟩ := (Option.any_eq_true _ _).1 hbegins
      rcases hopens with hopens | hopens <;>
        rw [kind_eq_of_isAt (isAt_iff.2 ⟨p, hp, rfl⟩) hopens] at hprecedes <;> cases hprecedes
    | pattern hcloser =>
      rw [hk] at hcloser
      cases hcloser
    | expression hnext =>
      have hjsx := hcode (by rw [hk]; rfl) hnext
      rw [hcontext] at hjsx
      cases hjsx

end Stream

end ModuleLowering
