import ModuleLowering.Proofs.Role.Coverage
import ModuleLowering.Proofs.Role.Tags
import ModuleLowering.Proofs.Scan.Frames

namespace ModuleLowering

theorem Region.eq_bracket_of_opens {region : Region} (h : region.Opens .openBracket) : region = .bracket := by
  cases region with
  | bracket => rfl
  | templateExpr => rcases h with h | h <;> cases h
  | _ => cases h

theorem Token.endsExpression_of_precedesTarget {t : Token} (h : t.kind.precedesTarget) : t.endsExpression = false := by
  unfold endsExpression
  generalize t.kind = kind at h
  cases kind with
  | keyword word => cases word <;> first | rfl | cases h
  | _ => first | rfl | cases h

namespace Stream

section

variable {s : Stream} {i : Nat} {p t : Token} (hp : s.tokens[i]? = some p) (hk : p.kind.precedesTarget)
include hp hk

theorem beginsLineAfterExpression_of_target : s.beginsLineAfterExpression (i + 1) = false := by
  rw [beginsLineAfterExpression, before?_succ, hp, Option.any_some, Token.endsExpression_of_precedesTarget hk,
    Bool.and_false]

theorem beginsProperty_of_target (hcomma : p.kind ≠ .comma) : s.beginsProperty (i + 1) = false := by
  rw [beginsProperty, hp]
  dsimp only
  generalize p.kind = kind at hk hcomma
  cases kind with
  | comma => exact absurd rfl hcomma
  | keyword word => rfl
  | _ => first | rfl | cases hk

theorem beginsMember_of_target : s.beginsMember (i + 1) = false := by
  have hline := beginsLineAfterExpression_of_target hp hk
  rw [beginsMember, hp]
  dsimp only
  generalize p.kind = kind at hk
  cases kind with
  | keyword word => exact hline
  | _ => first | exact hline | cases hk

theorem beginsStatement_of_target : s.beginsStatement (i + 1) = false := by
  have hline := beginsLineAfterExpression_of_target hp hk
  rw [beginsStatement, before?_succ, hp]
  dsimp only
  generalize p.kind = kind at hk
  cases kind with
  | keyword word => exact hline
  | _ => first | exact hline | cases hk

theorem roleAt_of_target (ht : t.kind = .identifier) (htag : t.context ≠ .jsxTag)
    (hcomma : p.kind = .comma → t.context ≠ .object ∧ t.context ≠ .pattern) : s.roleAt (i + 1) t = .reference := by
  have hbefore (f : Token → Bool) : (s.before? (i + 1)).any f = f p := by rw [before?_succ, hp, Option.any_some]
  have hother (kind : Kind) (h : kind.precedesTarget = false) : p.kind ≠ kind := by
    rintro rfl
    rw [hk] at h
    cases h
  have hdeclarator : s.followsDeclarator (i + 1) = false := by
    rw [followsDeclarator, before?_succ, hp, Option.map_some]
    split
    · rename_i h
      exact absurd (Option.some.inj h) (hother _ rfl)
    · rename_i h
      exact absurd (Option.some.inj h) (hother _ rfl)
    · rename_i h
      exact absurd (Option.some.inj h) (hother _ rfl)
    · rfl
  have hjump : s.followsJump (i + 1) t = false := by
    rw [followsJump, hbefore, decide_eq_false (hother _ rfl), decide_eq_false (hother _ rfl)]
    simp
  have hproperty : ((t.context = .object || t.context = .pattern) && s.beginsProperty (i + 1)) = false := by
    by_cases h : p.kind = .comma
    · simp [hcomma h]
    · rw [beginsProperty_of_target hp hk h, Bool.and_false]
  unfold roleAt
  rw [hbefore, ht, decide_eq_false (hother _ rfl), decide_eq_false (hother _ rfl), hdeclarator, hjump, hproperty,
    beginsMember_of_target hp hk, beginsStatement_of_target hp hk]
  simp [htag]

end

def NamesTarget (r : Stream) (n : Nat) : Prop :=
  ∃ i p t, n = i + 1 ∧ r.tokens[i]? = some p ∧ p.kind.precedesTarget ∧ r.tokens[n]? = some t ∧ t.kind = .identifier ∧
    t.context ≠ .jsxTag ∧ (p.kind = .comma → t.context ≠ .object ∧ t.context ≠ .pattern)

section

variable {source : List Char} {r : Stream} {n : Nat → Nesting} (h : History r n) (hb : Bracketed r.tokens [])
include h hb

theorem frames_of_beginsIn {o stop : Nat} {e : BindingElement} (he : r.BeginsIn o stop e) : ∃ region waiting,
    region.Opens (if e.inObject then .openBrace else .openBracket) ∧
      (n e.start).frames = .group region o waiting :: (n o).frames := by
  obtain ⟨a, ha, hk⟩ := isAt_iff.1 he.bracket
  rw [← hk]
  rcases he.place with hstart | ⟨c, hstart, hoc, hcomma, hdepth⟩
  · rw [hstart]
    obtain ⟨region, waiting, hframes, hopens, _⟩ := h.opens ha ((mates_of_closer? hb he.closer).isOpener ha)
    exact ⟨region, waiting, hopens, hframes⟩
  · obtain ⟨b, hb', hkb⟩ := isAt_iff.1 hcomma
    have hstop := he.lt_stop
    have hsteady : b.kind.isSteady := by rw [hkb]; rfl
    rw [depthAt_eq ha, depthAt_eq hb'] at hdepth
    rw [hstart, (h.steady hb' hsteady).1]
    exact h.directly_inside hb he.closer hoc (by omega) ha hb' hsteady (by rw [hkb]; rfl) hdepth

theorem namesTarget_of_item {o stop : Nat} {e : BindingElement} (he : r.BeginsIn o stop e) (hlist : e.inObject = false)
    (hname : r.isAt e.start .identifier) : r.NamesTarget e.start := by
  obtain ⟨region, waiting, hopens, hframes⟩ := frames_of_beginsIn h hb he
  obtain ⟨t, ht, hkt⟩ := isAt_iff.1 hname
  have hcontext := (h.steady ht (by rw [hkt]; rfl)).2.2
  rw [hlist, if_neg nofun] at hopens
  obtain rfl := Region.eq_bracket_of_opens hopens
  rw [hframes] at hcontext
  have hcontext : t.context = .bracket := hcontext
  have hbefore : ∃ i p, e.start = i + 1 ∧ r.tokens[i]? = some p ∧ p.kind.precedesTarget := by
    rcases he.place with hstart | ⟨c, hstart, _, hcomma, _⟩
    · obtain ⟨p, hp, hk⟩ := isAt_iff.1 he.bracket
      rw [hlist, if_neg nofun] at hk
      exact ⟨o, p, hstart, hp, by rw [hk]; rfl⟩
    · obtain ⟨p, hp, hk⟩ := isAt_iff.1 hcomma
      exact ⟨c, p, hstart, hp, by rw [hk]; rfl⟩
  obtain ⟨i, p, hi, hp, hk⟩ := hbefore
  exact ⟨i, p, t, hi, hp, hk, ht, hkt, by rw [hcontext]; nofun, fun _ => by rw [hcontext]; exact ⟨nofun, nofun⟩⟩

omit h in
theorem namesTarget_of_steady {i : Nat} {p : Token} (hp : r.tokens[i]? = some p) (hk : p.kind.precedesTarget)
    (hsteady : p.kind.isSteady) (hcode : p.context.isJsx = false)
    (hcomma : p.kind = .comma → p.context ≠ .object ∧ p.context ≠ .pattern) (hname : r.isAt (i + 1) .identifier) :
    r.NamesTarget (i + 1) := by
  obtain ⟨t, ht, hkt⟩ := isAt_iff.1 hname
  rw [(hb.steady i p t hp ht hsteady (by rw [hkt]; rfl)).2] at hcode hcomma
  refine ⟨i, p, t, rfl, hp, hk, ht, hkt, ?_, hcomma⟩
  intro htag
  rw [htag] at hcode
  cases hcode

theorem isJsx_of_key (hr : Stream.read source = .ok r) {o stop : Nat} {e : BindingElement} (he : r.BeginsIn o stop e)
    {t : Token} (ht : r.tokens[r.afterKey e.start]? = some t) (hk : t.kind = .colon) :
    t.context.isJsx = false := by
  obtain ⟨region, waiting, hopens, hframes⟩ := frames_of_beginsIn h hb he
  have hregion : region.isJsx = false := Region.isJsx_eq_false_of_opens hopens
  have hcontext := (h.steady ht (by rw [hk]; rfl)).2.2
  have hmates := mates_of_closer? hb he.closer
  -- A key in brackets closes them again. Any other key is one token, and no tag begins with a colon.
  unfold afterKey at ht hcontext
  split at ht
  · rename_i hbracket
    rw [if_pos hbracket] at hcontext
    obtain ⟨a, ha, hka⟩ := isAt_iff.1 hbracket
    obtain ⟨j, hj⟩ := hb.exists_mates ha (by rw [hka]; rfl)
    rw [skip, hj.closer?] at hcontext
    rw [hcontext, h.after_closer hb hj.closer?, hframes]
    exact hregion
  · rename_i hbracket
    rw [if_neg hbracket] at hcontext
    have hstart := he.lt_start
    obtain ⟨a, ha⟩ : ∃ a, r.tokens[e.start]? = some a :=
      ⟨_, Array.getElem?_eq_getElem (Nat.lt_of_succ_lt (lt_size_of_getElem? ht))⟩
    obtain ⟨b, _, _, hb', _⟩ := hmates.brackets
    obtain ⟨_, _, _, _, hdepth, _⟩ := h.opens hb' (hmates.isOpener hb')
    have hdeep := hmates.inner _ b a hb' hstart he.lt_stop ha
    rw [hdepth] at hdeep
    rcases h.isJsx_or_beginsTag ha hframes hregion hdeep with hcode | ⟨htag, hcode⟩
    · rwa [hcontext]
    · exact isJsx_of_colon_after_less hr ha ht htag hcode hk

theorem namesTarget_of_beginsIn (hr : Stream.read source = .ok r) {o stop : Nat} {e : BindingElement}
    (he : r.BeginsIn o stop e) (hname : r.isAt (r.targetOf e) .identifier)
    (hother : ¬ (e.inObject ∧ r.targetOf e = e.start)) : r.NamesTarget (r.targetOf e) := by
  unfold targetOf elementTarget at hname hother ⊢
  by_cases hrest : r.isAt e.start .ellipsis
  · rw [if_pos hrest] at hname ⊢
    obtain ⟨p, hp, hk⟩ := isAt_iff.1 hrest
    refine namesTarget_of_steady hb hp (by rw [hk]; rfl) (by rw [hk]; rfl) ?_ (by rw [hk]; nofun) hname
    exact h.isJsx_of_steady hp (by rw [hk]; rfl) (by rw [hk]; rfl)
  · rw [if_neg hrest] at hname hother ⊢
    by_cases hcolon : (e.inObject && r.isAt (r.afterKey e.start) .colon) = true
    · rw [if_pos hcolon] at hname ⊢
      rw [Bool.and_eq_true] at hcolon
      obtain ⟨p, hp, hk⟩ := isAt_iff.1 hcolon.2
      refine namesTarget_of_steady hb hp (by rw [hk]; rfl) (by rw [hk]; rfl) ?_ (by rw [hk]; nofun) hname
      exact isJsx_of_key h hb hr he hp hk
    · rw [if_neg hcolon] at hname hother ⊢
      exact namesTarget_of_item h hb he (by simpa using hother) hname

end

theorem NamesTarget.assignRoles {r : Stream} {n : Nat} (h : r.NamesTarget n) (is : List Nat) :
    (is.foldl assignRole r).NamesTarget n := by
  refine kept_by_assignRoles (P := (·.NamesTarget n)) ?_ h is
  rintro s k f hf ⟨i, p, t, hi, hp, hk, ht, hkt, htag, hcomma⟩
  have hupdate {j : Nat} {u : Token} (hu : s.tokens[j]? = some u) :
      ∃ v, (s.update k f).tokens[j]? = some v ∧ v.kind = u.kind ∧ v.context = u.context := by
    rw [show (s.update k f).tokens = s.tokens.modify k f from rfl, Array.getElem?_modify, hu]
    split
    · obtain ⟨role, hrole⟩ := hf u
      exact ⟨_, rfl, by rw [hrole], by rw [hrole]⟩
    · exact ⟨u, rfl, rfl, rfl⟩
  obtain ⟨p', hp', hkp, _⟩ := hupdate hp
  obtain ⟨t', ht', hkt', hcontext⟩ := hupdate ht
  exact ⟨i, p', t', hi, hp', by rwa [hkp], ht', hkt'.trans hkt, by rwa [hcontext], by rwa [hkp, hcontext]⟩

theorem role?_foldl_assignRole {s : Stream} {k : Nat} {is : List Nat} (h : ∀ i ∈ is, i ≠ k) :
    (is.foldl assignRole s).role? k = s.role? k := by
  induction is generalizing s with
  | nil => rfl
  | cons i is ih =>
    obtain ⟨hi, his⟩ := List.forall_mem_cons.1 h
    rw [List.foldl_cons, ih his]
    unfold assignRole
    split
    · split
      · exact role?_update_of_ne hi
      · rfl
    · rfl

theorem range_eq_append_cons {n size : Nat} (h : n < size) :
    List.range size = List.range n ++ n :: List.range' (n + 1) (size - n - 1) := by
  have happend := @List.range'_append_1 0 n (size - n - 1 + 1)
  rw [Nat.zero_add, show n + (size - n - 1 + 1) = size by omega] at happend
  rw [← List.range'_succ, List.range_eq_range', List.range_eq_range', happend]

theorem NamesTarget.role?_assignRoles {r : Stream} {n : Nat} (h : r.NamesTarget n) :
    r.assignRoles.role? n = some .reference := by
  have hsize : n < r.tokens.size := by
    obtain ⟨_, _, _, _, _, _, ht, _⟩ := h
    exact lt_size_of_getElem? ht
  rw [Stream.assignRoles, range_eq_append_cons hsize, List.foldl_append, List.foldl_cons]
  obtain ⟨i, p, t, rfl, hp, hk, ht, hkt, htag, hcomma⟩ := h.assignRoles (List.range n)
  generalize (List.range (i + 1)).foldl assignRole r = m at hp ht
  have hassign : (m.assignRole (i + 1)).role? (i + 1) = some .reference := by
    unfold assignRole
    simp only [ht, hkt, Kind.hasRole, if_true]
    rw [role?_setRole (lt_size_of_getElem? ht), roleAt_of_target hp hk hkt htag hcomma]
  rw [role?_foldl_assignRole fun k hmem => ?_, hassign]
  have := (List.mem_range'_1.1 hmem).1
  omega

end Stream

end ModuleLowering
