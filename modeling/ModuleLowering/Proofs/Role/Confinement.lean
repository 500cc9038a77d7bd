import ModuleLowering.Proofs.Role.InPlace
import ModuleLowering.Proofs.Role.Tags

namespace ModuleLowering

def Mark.Names (s : Stream) : Mark → Prop
  | .target i | .name i => s.isAt i .identifier
  | .pattern _ _ => True

namespace Stream

mutual

theorem names_of_mem_targetMarks {s : Stream} {i stop : Nat} {m : Mark} (h : m ∈ s.targetMarks i stop) :
    m.Names s := by
  unfold targetMarks at h
  split at h
  · split at h
    · exact names_of_mem_targetMarks h
    · rename_i hkind
      rw [List.mem_singleton.1 h]
      exact decide_eq_true hkind
    · split at h
      · rcases List.mem_cons.1 h with rfl | h
        · trivial
        · exact names_of_mem_objectMarks h
      · cases h
    · split at h
      · exact names_of_mem_listMarks h
      · cases h
    · cases h
  · cases h
termination_by 2 * (s.tokens.size - i)

theorem names_of_mem_listMarks {s : Stream} {i stop : Nat} {m : Mark} (h : m ∈ s.listMarks i stop) : m.Names s := by
  unfold listMarks at h
  split at h
  · rename_i hlt
    have := s.lt_nextElement (Nat.le_of_lt hlt.1)
    rcases List.mem_append.1 h with h | h
    · exact names_of_mem_targetMarks h
    · exact names_of_mem_listMarks h
  · cases h
termination_by 2 * (s.tokens.size - i) + 1

theorem names_of_mem_objectMarks {s : Stream} {i stop : Nat} {m : Mark} (h : m ∈ s.objectMarks i stop) :
    m.Names s := by
  unfold objectMarks at h
  dsimp only at h
  split at h
  · rename_i hlt
    have hkey := s.lt_afterKey i
    split at h
    · have := s.lt_nextElement (show i + 1 ≤ stop by omega)
      rcases List.mem_append.1 h with h | h
      · exact names_of_mem_targetMarks h
      · exact names_of_mem_objectMarks h
    · split at h
      · rename_i hcolon
        have := s.lt_nextElement (show s.afterKey i + 1 ≤ stop by omega)
        rcases List.mem_append.1 h with h | h
        · exact names_of_mem_targetMarks h
        · exact names_of_mem_objectMarks h
      · have := s.min_le_skipToComma (s.afterKey i) stop
        rcases List.mem_append.1 h with h | h
        · split at h
          · rw [List.mem_singleton.1 h]
            assumption
          · cases h
        · exact names_of_mem_objectMarks h
  · cases h
termination_by 2 * (s.tokens.size - i) + 1

end

theorem names_of_mem_declaratorMarks {s : Stream} {i : Nat} {m : Mark} (h : m ∈ s.declaratorMarks i) : m.Names s := by
  fun_induction declaratorMarks s i with
  | case1 i stop hcomma ih => exact (List.mem_append.1 h).elim names_of_mem_targetMarks ih
  | case2 => exact names_of_mem_targetMarks h

theorem names_of_mem_siteMarks {s : Stream} {i : Nat} {m : Mark} (h : m ∈ s.siteMarks i) : m.Names s := by
  unfold siteMarks at h
  split at h
  · cases h
  · rename_i t ht
    split at h
    · split at h
      · split at h
        · exact names_of_mem_listMarks h
        · cases h
      · cases h
    · rename_i hkind
      split at h
      · rw [List.mem_singleton.1 h]
        exact (isAt_eq ht _).trans (decide_eq_true hkind)
      · cases h
    · split at h
      · exact names_of_mem_declaratorMarks h
      · cases h
    · cases h

def Roled (s : Stream) : Prop := ∀ k, (s.role? k).isSome = (s.kind? k).any Kind.hasRole

theorem kind?_outline {r s : Stream} (ho : s.outline = r.outline) (k : Nat) : s.kind? k = r.kind? k :=
  (Congruent.of_outline ho).kind?_eq k

theorem isSome_role?_update (s : Stream) {i k : Nat} {f : Token → Token} (hf : ∀ t, (f t).role.isSome = t.role.isSome) :
    ((s.update i f).role? k).isSome = (s.role? k).isSome := by
  unfold role? update
  rw [Array.getElem?_modify]
  split
  · cases s.tokens[k]? with
    | none => rfl
    | some t => exact hf t
  · rfl

theorem isSome_role?_setRole (s : Stream) (i k : Nat) (role : Role) :
    ((s.setRole i role).role? k).isSome = ((s.role? k).isSome || (decide (i = k) && (s.kind? k).isSome)) := by
  unfold role? kind? setRole update
  rw [Array.getElem?_modify]
  by_cases heq : i = k
  · cases s.tokens[k]? <;> simp [heq]
  · simp [heq]

theorem isSome_role?_assignRole (s : Stream) (i k : Nat) :
    ((s.assignRole i).role? k).isSome = ((s.role? k).isSome || (decide (i = k) && (s.kind? k).any Kind.hasRole)) := by
  unfold assignRole
  by_cases heq : i = k
  · subst heq
    unfold kind?
    cases ht : s.tokens[i]? with
    | none => simp
    | some t =>
      dsimp only
      split
      · simp [isSome_role?_setRole, kind?, *]
      · simp [*]
  · rw [decide_eq_false heq, Bool.false_and, Bool.or_false]
    split
    · split
      · rw [isSome_role?_setRole, decide_eq_false heq, Bool.false_and, Bool.or_false]
      · rfl
    · rfl

theorem isSome_role?_foldl_assignRole (is : List Nat) (s : Stream) (k : Nat) :
    ((is.foldl assignRole s).role? k).isSome =
      ((s.role? k).isSome || (decide (k ∈ is) && (s.kind? k).any Kind.hasRole)) := by
  induction is generalizing s with
  | nil => simp
  | cons i is ih =>
    rw [List.foldl_cons, ih, isSome_role?_assignRole, kind?_outline (s.outline_assignRole i)]
    by_cases heq : i = k
    · subst heq
      cases (s.role? i).isSome <;> cases (s.kind? i).any Kind.hasRole <;> simp
    · simp [heq, Ne.symm heq]

theorem roled_assignRoles {r : Stream} (hr : ∀ k, r.role? k = none) : r.assignRoles.Roled := by
  intro k
  rw [kind?_outline r.outline_assignRoles, assignRoles, isSome_role?_foldl_assignRole, hr k]
  by_cases hk : k < r.tokens.size
  · simp [hk]
  · simp [hk, kind?]

theorem Roled.mark {s : Stream} (hs : s.Roled) {m : Mark} (hm : m.Names s) : (s.mark m).Roled := by
  intro k
  rw [kind?_outline (s.outline_mark m), ← hs k]
  cases m with
  | target i =>
    refine s.isSome_role?_update fun t => ?_
    split
    · rename_i hrole
      rcases Bool.or_eq_true_iff.1 hrole with h | h <;> rw [of_decide_eq_true h] <;> rfl
    · rfl
  | name i =>
    refine (s.isSome_role?_setRole i k .declaration).trans ?_
    by_cases heq : i = k
    · subst heq
      have hkind : s.kind? i = some .identifier := of_decide_eq_true hm
      have hnamed : (s.role? i).isSome = true := by
        rw [hs i, hkind]
        rfl
      rw [hnamed, Bool.true_or]
    · rw [decide_eq_false heq, Bool.false_and, Bool.or_false]
  | pattern a b =>
    have hgroup (u : Stream) (i : Nat) : ((u.setGroup i .pattern).role? k).isSome = (u.role? k).isSome :=
      u.isSome_role?_update fun _ => rfl
    have hgroups : (((s.setGroup a .pattern).setGroup b .pattern).role? k).isSome = (s.role? k).isSome := by
      rw [hgroup, hgroup]
    refine List.foldlRecOn (motive := fun u : Stream => (u.role? k).isSome = (s.role? k).isSome) _ _ hgroups
      fun u hu i _ => (u.isSome_role?_update fun t => ?_).trans hu
    split <;> rfl

theorem names_outline {r s : Stream} (ho : s.outline = r.outline) {m : Mark} (h : m.Names s) : m.Names r := by
  cases m with
  | target i | name i => exact (isAt_outline ho i _).symm.trans h
  | pattern => trivial

theorem Roled.marks {s : Stream} (hs : s.Roled) {ms : List Mark} (hms : ∀ m ∈ ms, m.Names s) :
    (ms.foldl Stream.mark s).Roled := by
  refine (List.foldlRecOn (motive := fun u : Stream => u.Roled ∧ u.outline = s.outline) _ _ ⟨hs, rfl⟩
    fun u hu m hm => ⟨hu.1.mark (names_outline hu.2.symm (hms m hm)), (u.outline_mark m).trans hu.2⟩).1

theorem roled_of_read {source : List Char} {r : Stream} (h : Stream.read source = .ok r) :
    r.assignRoles.markSites.Roled := by
  have hassigned : r.assignRoles.Roled := roled_assignRoles fun k => by
    unfold role?
    cases ht : r.tokens[k]? with
    | none => rfl
    | some t => exact role_of_read h ht
  exact List.foldlRecOn _ _ hassigned fun s hs i _ => hs.marks fun _ => names_of_mem_siteMarks

def ContextsKept (r s : Stream) : Prop :=
  ∀ k, s.context? k = r.context? k ∨ (r.context? k = some .object ∧ s.context? k = some .pattern)

def GroupsKept (r s : Stream) : Prop :=
  ∀ k, s.group? k = r.group? k ∨
    ∃ a b, r.PatternAt a b ∧ (k = a ∨ k = b) ∧ s.group? a = some .pattern ∧ s.group? b = some .pattern

theorem context?_kept {s : Stream} {f : Token → Token} (hf : ∀ t, (f t).context = t.context) (i k : Nat) :
    (s.update i f).context? k = s.context? k := by
  refine (context?_update (g := id) hf i k).trans ?_
  simp

theorem contextsKept_pattern {r s : Stream} (hs : ContextsKept r s) (a b : Nat) :
    ContextsKept r (s.mark (.pattern a b)) := by
  intro k
  have hgroup (u : Stream) (i : Nat) : (u.setGroup i .pattern).context? k = u.context? k :=
    context?_kept (f := fun t => { t with group := some .pattern }) (fun _ => rfl) i k
  have hgroups : ((s.setGroup a .pattern).setGroup b .pattern).context? k = s.context? k := by rw [hgroup, hgroup]
  have hcontext : (s.mark (.pattern a b)).context? k =
      if k ∈ s.members (a + 1) b then (s.context? k).map asPattern else s.context? k := by
    rw [Stream.mark, context?_foldl_enterPattern, hgroups]
  by_cases hmem : k ∈ s.members (a + 1) b
  · rw [if_pos hmem] at hcontext
    rw [hcontext]
    rcases hs k with heq | ⟨hobject, hpattern⟩
    · rw [heq]
      cases hregion : r.context? k with
      | none => exact .inl rfl
      | some region =>
        cases region with
        | object => exact .inr ⟨rfl, rfl⟩
        | _ => exact .inl rfl
    · exact .inr ⟨hobject, by rw [hpattern]; rfl⟩
  · rw [if_neg hmem] at hcontext
    rw [hcontext]
    exact hs k

theorem group?_mark_pattern {s : Stream} {a b : Nat} (ha : a < s.tokens.size) (hb : b < s.tokens.size) (k : Nat) :
    (s.mark (.pattern a b)).group? k = if k = a ∨ k = b then some .pattern else s.group? k := by
  rw [Stream.mark, group?_foldl_enterPattern]
  by_cases hkb : k = b
  · subst hkb
    rw [if_pos (.inr rfl)]
    exact group?_setGroup (by rwa [setGroup, update, Array.size_modify]) .pattern
  · have hcloser : ((s.setGroup a .pattern).setGroup b .pattern).group? k = (s.setGroup a .pattern).group? k :=
      group?_update_of_ne (Ne.symm hkb)
    rw [hcloser]
    by_cases hka : k = a
    · subst hka
      rw [if_pos (.inl rfl)]
      exact group?_setGroup ha .pattern
    · rw [if_neg (by simp [hka, hkb])]
      exact group?_update_of_ne (Ne.symm hka)

theorem groupsKept_pattern {r s : Stream} (hr : r.Matched) (ho : s.outline = r.outline) (hs : GroupsKept r s)
    {a b : Nat} (hab : s.PatternAt a b) : GroupsKept r (s.mark (.pattern a b)) := by
  have hb : b < s.tokens.size := (hr.outline ho).within.lt_of_closer? hab.closer
  have ha : a < s.tokens.size := Nat.lt_trans (lt_of_closer? hab.closer) hb
  have hgroup (k : Nat) := group?_mark_pattern ha hb k
  intro k
  by_cases hk : k = a ∨ k = b
  · refine .inr ⟨a, b, patternAt_outline ho hab, hk, ?_, ?_⟩
    · rw [hgroup, if_pos (.inl rfl)]
    · rw [hgroup, if_pos (.inr rfl)]
  · have hpattern {c : Nat} (hc : s.group? c = some .pattern) : (s.mark (.pattern a b)).group? c = some .pattern := by
      rw [hgroup]
      split
      · rfl
      · exact hc
    rw [hgroup k, if_neg hk]
    refine (hs k).imp_right ?_
    rintro ⟨c, d, hcd, hkcd, hc, hd⟩
    exact ⟨c, d, hcd, hkcd, hpattern hc, hpattern hd⟩

/-- What classification changes of `r` to get `s`: the roles of names, the groups of pairs that become patterns, and
the contexts that become those of patterns. -/
structure Confines (r s : Stream) : Prop where
  size_eq : s.tokens.size = r.tokens.size
  stop_eq : s.stop = r.stop
  kept : ∀ (i : Nat) (t u : Token), r.tokens[i]? = some t → s.tokens[i]? = some u →
    { u with context := t.context, group := t.group, role := t.role } = t
  context : ∀ (i : Nat) (t u : Token), r.tokens[i]? = some t → s.tokens[i]? = some u →
    u.context = t.context ∨ (t.context = .object ∧ u.context = .pattern)
  group : ∀ (i : Nat) (t u : Token), r.tokens[i]? = some t → s.tokens[i]? = some u →
    u.group = t.group ∨
      (u.group = some .pattern ∧ ∃ j v, t.pair = some j ∧ s.tokens[j]? = some v ∧ v.group = some .pattern)
  role : ∀ u ∈ s.tokens, u.role ≠ none ↔ u.kind = .identifier ∨ u.kind = .privateIdentifier

theorem GroupsKept.exists_partner {r s : Stream} (hb : Bracketed r.tokens []) (hs : GroupsKept r s) {i : Nat}
    {t u : Token} (ht : r.tokens[i]? = some t) (hu : s.tokens[i]? = some u) :
    u.group = t.group ∨
      (u.group = some .pattern ∧ ∃ j v, t.pair = some j ∧ s.tokens[j]? = some v ∧ v.group = some .pattern) := by
  have hgroup {k : Nat} (hk : s.group? k = some .pattern) : ∃ v, s.tokens[k]? = some v ∧ v.group = some .pattern :=
    Option.bind_eq_some_iff.1 hk
  rcases hs i with heq | ⟨a, b, hab, rfl | rfl, ha, hb'⟩
  · rw [group?, group?, hu, ht] at heq
    exact .inl heq
  all_goals
    obtain ⟨a', b', _, ha', hb'', _, _, _, _, hap, hbp, _⟩ := (mates_of_closer? hb hab.closer).brackets
    obtain ⟨v, hv, hvg⟩ := hgroup ha
    obtain ⟨w, hw, hwg⟩ := hgroup hb'
  · cases ht.symm.trans ha'
    cases hu.symm.trans hv
    exact .inr ⟨hvg, b, w, hap, hw, hwg⟩
  · cases ht.symm.trans hb''
    cases hu.symm.trans hw
    exact .inr ⟨hwg, a, v, hbp, hv, hvg⟩

theorem Roled.role_iff {s : Stream} (hs : s.Roled) {u : Token} (hu : u ∈ s.tokens) :
    u.role ≠ none ↔ u.kind = .identifier ∨ u.kind = .privateIdentifier := by
  obtain ⟨i, hi⟩ := Array.getElem?_of_mem hu
  have hrole := hs i
  rw [role?, kind?, hi, Option.bind_some, Option.map_some, Option.any_some] at hrole
  rw [← Option.isSome_iff_ne_none, hrole]
  cases u.kind <;> simp [Kind.hasRole]

theorem kept_of_outline {t u : Token} (h : u.outline = t.outline) :
    { u with context := t.context, group := t.group, role := t.role } = t := by
  cases t
  cases u
  simp only [Token.outline, Token.mk.injEq] at h ⊢
  simp [h]

theorem ContextsKept.cases {r s : Stream} (hs : ContextsKept r s) {i : Nat} {t u : Token} (ht : r.tokens[i]? = some t)
    (hu : s.tokens[i]? = some u) : u.context = t.context ∨ (t.context = .object ∧ u.context = .pattern) := by
  have hcontext := hs i
  rw [context?, context?, ht, hu] at hcontext
  simpa using hcontext

theorem contextsKept_of_roles (r : Stream) : ContextsKept r r.assignRoles.markSites := by
  refine kept_by_roles (fun s i f hf hs k => ?_) (fun s a b _ _ hs => contextsKept_pattern hs a b) fun k => .inl rfl
  rw [context?_kept (fun t => ?_)]
  · exact hs k
  · obtain ⟨_, ht⟩ := hf t
    rw [ht]

theorem groupsKept_of_roles {r : Stream} (hr : r.Matched) : GroupsKept r r.assignRoles.markSites := by
  refine kept_by_roles (fun s i f hf hs => ?_) (fun s a b ho hab hs => groupsKept_pattern hr ho hs hab)
    fun k => .inl rfl
  have hgroup (k : Nat) : (s.update i f).group? k = s.group? k := by
    refine group?_update (fun t => ?_) i k
    obtain ⟨_, ht⟩ := hf t
    rw [ht]
  intro k
  simpa only [hgroup] using hs k

theorem confines_of_read {source : List Char} {r : Stream} (h : Stream.read source = .ok r) :
    Confines r r.assignRoles.markSites := by
  have ho : r.assignRoles.markSites.outline = r.outline := r.outline_markSites _
  exact {
    size_eq := size_of_outline ho
    stop_eq := congrArg (·.stop) ho
    kept := fun i t u ht hu => by
      obtain ⟨t', ht', hout⟩ := exists_of_outline ho hu
      cases ht.symm.trans ht'
      exact kept_of_outline hout.symm
    context := fun i t u => (contextsKept_of_roles r).cases
    group := fun i t u => (groupsKept_of_roles (matched_of_read h)).exists_partner (bracketed_of_read h)
    role := fun u => (roled_of_read h).role_iff }

end Stream

/-- Classification comes to its end, with every index one of a token, whatever the tokens of a source are; it gives a
role to every name and to nothing else, and changes of the rest only what becomes part of a pattern. -/
theorem classification_confined {source : List Char} {r : Stream} (h : Stream.read source = .ok r) :
    ∃ s, (∀ n, 2 * r.tokens.size < n → r.classify? n = some s) ∧ scan source = .ok s ∧ Stream.Confines r s := by
  have hscan : scan source = .ok r.assignRoles.markSites := by rw [scan, h]; rfl
  exact ⟨_, fun n => Stream.classify?_eq (Stream.matched_of_read h), hscan, Stream.confines_of_read h⟩

/-- Elements that are no targets: an equals sign, and nothing behind a key or behind an ellipsis. -/
theorem classification_confined_malformed :
    let source := "let \x7ba: [=, ...\x7bb,\x7d], [c]: ,\x7d ..., d".toList
    ∃ r s, Stream.read source = .ok r ∧ r.classify? 47 = some s ∧ Stream.Confines r s ∧
      r.group? 8 = some .object ∧ r.context? 9 = some .object ∧
      s.group? 8 = some .pattern ∧ s.context? 9 = some .pattern := by
  intro source
  obtain ⟨r, hr, hread⟩ := exists_ok_of_test (x := Stream.read source) (fun r =>
    r.tokens.size = 23 && r.group? 8 = some .object && r.context? 9 = some .object) (by decide +kernel)
  obtain ⟨s, hs, hpattern⟩ := exists_ok_of_test (x := scan source) (fun s =>
    s.group? 8 = some .pattern && s.context? 9 = some .pattern) (by decide +kernel)
  simp only [Bool.and_eq_true, decide_eq_true_eq] at hread hpattern
  obtain ⟨s', hclassify, hscan, hconfines⟩ := classification_confined hr
  cases hs.symm.trans hscan
  exact ⟨r, s, hr, hclassify 47 (by rw [hread.1.1]; decide), hconfines, hread.1.2, hread.2, hpattern.1, hpattern.2⟩

end ModuleLowering
