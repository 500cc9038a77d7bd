import ModuleLowering.Proofs.Role.Initializers

/-!
Names of declarator lists. Statements collect them, binding sites mark them; the two find the same names, up to a
token that ends an initializer for the one and not for the other.
-/

namespace ModuleLowering

theorem Kind.isSteady_of_declaresVariables {kind : Kind} (h : kind.declaresVariables) : kind.isSteady := by
  cases kind with
  | keyword word => rfl
  | _ => cases h

namespace Stream

variable {source : List Char} {s : Stream}

inductive LeadsTo (s : Stream) (i : Nat) : Nat → Prop
  | here : s.LeadsTo i i
  | next {d j k : Nat} {names : List String} {simple : Bool} {equalsEnd : Option Nat} (h : s.LeadsTo i d)
      (htarget : s.declaratorTarget? d = some (names, simple, j)) (hinit : s.initializer j = .ok (equalsEnd, k))
      (hcomma : s.isAt k .comma) : s.LeadsTo i (k + 1)

theorem LeadsTo.le {i d : Nat} (h : s.LeadsTo i d) : i ≤ d := by
  induction h with
  | here => exact Nat.le_refl i
  | next _ htarget hinit _ ih =>
    have := lt_of_declaratorTarget? htarget
    have := le_of_initializer hinit
    omega

theorem exists_of_mem_declaredElements {i₀ i : Nat} (h : s.LeadsTo i₀ i) {e : BindingElement}
    (he : e ∈ s.declaredElements i) :
    ∃ d names simple j, s.LeadsTo i₀ d ∧ s.declaratorTarget? d = some (names, simple, j) ∧
      (e = ⟨false, d⟩ ∨ e ∈ s.patternElements d) ∧ s.patternElements d ⊆ s.declaredElements i := by
  rw [declaredElements] at he
  split at he
  · cases he
  · rename_i names simple j htarget
    split at he
    · cases he
    · rename_i equalsEnd k hinit
      have hlt := lt_of_declaratorTarget? htarget
      have hle := le_of_initializer hinit
      have hpattern : s.patternElements i ⊆ s.declaredElements i := by
        rw [declaredElements_eq htarget hinit]
        exact List.Subset.trans (List.subset_append_left _ _) (List.subset_cons_self _ _)
      rcases List.mem_cons.1 he with rfl | he
      · exact ⟨i, names, simple, j, h, htarget, .inl rfl, hpattern⟩
      rcases List.mem_append.1 he with he | he
      · exact ⟨i, names, simple, j, h, htarget, .inr he, hpattern⟩
      split at he
      · rename_i hcomma
        obtain ⟨d, names', simple', j', hd, htarget', hmem, hsubset⟩ :=
          exists_of_mem_declaredElements (h.next htarget hinit hcomma) he
        refine ⟨d, names', simple', j', hd, htarget', hmem, List.Subset.trans hsubset ?_⟩
        rw [declaredElements_eq htarget hinit, if_pos hcomma]
        exact List.Subset.trans (List.subset_append_right _ _) (List.subset_cons_self _ _)
      · cases he
termination_by s.tokens.size - i

theorem initializer_cases {j k : Nat} {equalsEnd : Option Nat} (h : s.initializer j = .ok (equalsEnd, k)) :
    (s.isAt j .equals ∧ k = s.expressionEnd (j + 1)) ∨ (s.isAt j .equals = false ∧ k = j) := by
  unfold initializer at h
  split at h
  · dsimp only at h
    split at h <;> cases h
    exact .inl ⟨‹_›, rfl⟩
  · rename_i hnot
    cases h
    exact .inr ⟨by simpa using hnot, rfl⟩

theorem afterTarget_declarator {d j : Nat} {names : List String} {simple : Bool}
    (h : s.declaratorTarget? d = some (names, simple, j)) : s.afterTarget d s.tokens.size = j := by
  rw [afterTarget, if_pos (lt_of_declaratorTarget? h).2]
  rcases declaratorTarget?_cases h with ⟨t, ht, hk, _, rfl⟩ | ⟨stop, hstop, hopens, _, rfl⟩
  · rw [kind?, ht, Option.map_some, hk]
  · have hskip : s.skip d = stop + 1 := by rw [skip, hstop]
    obtain hk | hk := Bool.or_eq_true_iff.1 hopens
    · rw [show s.kind? d = some .openBrace from of_decide_eq_true hk, hskip]
    · rw [show s.kind? d = some .openBracket from of_decide_eq_true hk, hskip]

theorem targetMarks_subset_declaratorMarks {i : Nat} : s.targetMarks i s.tokens.size ⊆ s.declaratorMarks i := by
  rw [declaratorMarks]
  split
  · exact List.subset_append_left _ _
  · exact List.Subset.refl _

section

variable {r : Stream} {n : Nat → Nesting} (h : History r n) (hb : Bracketed r.tokens []) (ho : s.outline = r.outline)
include h hb ho

omit hb in
theorem frames_of_isTopLevel {k : Nat} {t : Token} (ht : s.tokens[k]? = some t) (hk : t.kind.isSteady)
    (htop : t.isTopLevel) : (n (k + 1)).frames = [] := by
  obtain ⟨u, hu, hut⟩ := exists_of_outline ho ht
  obtain ⟨hframes, hdepth, hcontext⟩ := h.steady hu (by rwa [(same_of_outline hut).1])
  rw [← t.isTopLevel_outline, ← hut, u.isTopLevel_outline, Token.isTopLevel, Bool.and_eq_true, decide_eq_true_eq,
    decide_eq_true_eq] at htop
  rw [hframes]
  exact frames_eq_nil (hdepth ▸ htop.1) (hcontext ▸ htop.2)

theorem frames_of_declaratorTarget? {d j : Nat} {names : List String} {simple : Bool}
    (htarget : s.declaratorTarget? d = some (names, simple, j)) (hframes : (n d).frames = []) : (n j).frames = [] := by
  rcases declaratorTarget?_cases htarget with ⟨t, ht, hk, _, rfl⟩ | ⟨stop, hstop, _, _, rfl⟩
  · obtain ⟨u, hu, hut⟩ := exists_of_outline ho ht
    rw [(h.steady hu (by rw [(same_of_outline hut).1, hk]; rfl)).1, hframes]
  · rw [closer?_outline ho] at hstop
    rw [h.after_closer hb hstop, hframes]

theorem frames_of_leadsTo {i d : Nat} (hi : (n i).frames = []) (hd : s.LeadsTo i d) : (n d).frames = [] := by
  induction hd with
  | here => exact hi
  | @next d j k _ _ _ _ htarget hinit hcomma ih =>
    obtain ⟨t, ht, hk⟩ := isAt_iff.1 hcomma
    have hsteady : t.kind.isSteady := by rw [hk]; rfl
    rcases initializer_cases hinit with ⟨_, rfl⟩ | ⟨_, rfl⟩
    · obtain ⟨t', ht', htop⟩ := topLevel_of_comma hcomma
      rw [ht] at ht'
      cases ht'
      exact frames_of_isTopLevel h ho ht hsteady htop
    · obtain ⟨u, hu, hut⟩ := exists_of_outline ho ht
      rw [(h.steady hu (by rwa [(same_of_outline hut).1])).1]
      exact frames_of_declaratorTarget? h hb ho htarget ih

theorem namesTarget_of_mem_declaredElements (hr : Stream.read source = .ok r) {i : Nat} (hi : (n i).frames = [])
    (hbegins : r.beginsTarget i) {e : BindingElement} (he : e ∈ s.declaredElements i)
    (hname : s.isAt (s.targetOf e) .identifier) (hother : ¬ (e.inObject ∧ s.targetOf e = e.start)) :
    r.NamesTarget (s.targetOf e) := by
  obtain ⟨d, names, simple, j, hd, htarget, hmem, _⟩ := exists_of_mem_declaredElements .here he
  rcases hmem with rfl | hmem
  · rw [targetOf_declarator htarget] at hname ⊢
    have hbefore : r.beginsTarget d := by
      cases hd with
      | here => exact hbegins
      | next _ _ _ hcomma => exact beginsTarget_succ (isAt_outline ho _ _ ▸ hcomma) rfl
    obtain ⟨t, ht, hk⟩ := isAt_iff.1 (isAt_outline ho d _ ▸ hname)
    have hcontext := (h.steady ht (by rw [hk]; rfl)).2.2
    rw [frames_of_leadsTo h hb ho hi hd] at hcontext
    have htop : t.context = .topLevel := hcontext
    cases d with
    | zero => cases hbefore
    | succ d =>
      obtain ⟨p, hp, hkp⟩ := (Option.any_eq_true _ _).1 hbefore
      rw [before?_succ] at hp
      exact ⟨d, p, t, rfl, hp, hkp, ht, hk, by rw [htop]; nofun, fun _ => by rw [htop]; exact ⟨nofun, nofun⟩⟩
  · obtain ⟨o, stop, hin⟩ := beginsIn_of_mem_patternElements hmem
    rw [targetOf_outline ho] at hname hother ⊢
    rw [isAt_outline ho] at hname
    exact namesTarget_of_beginsIn h hb hr (beginsIn_outline ho hin) hname hother

theorem role?_mark_element (hr : Stream.read source = .ok r) {i : Nat} (hi : (n i).frames = [])
    (hbegins : r.beginsTarget i) {e : BindingElement} (he : e ∈ s.declaredElements i)
    (hname : s.isAt (s.targetOf e) .identifier) {m : Stream} (hm : r.assignRoles.Underlies m) :
    (m.mark (s.elementMark e)).role? (s.targetOf e) = some .declaration := by
  have hsize : m.tokens.size = s.tokens.size :=
    size_of_outline (hm.outline.symm.trans ((outline_assignRoles r).trans ho.symm))
  unfold elementMark
  split
  · rename_i hself
    rw [← hself.2]
    exact role?_mark_name (hsize ▸ lt_size_of_isAt hname)
  · rename_i hother
    have htarget := namesTarget_of_mem_declaredElements h hb ho hr hi hbegins he hname hother
    exact role?_mark_target (htarget.role?_assignRoles ▸ hm.roles (s.targetOf e))

theorem declaratorMarks_subset (hs : scan source = .ok s) {m : Stream} (hm : m.Underlies s) {i d : Nat}
    (hi : (n i).frames = []) (hd : s.LeadsTo i d) (hstray : ∀ v, i ≤ v → v < d → ¬ s.Strays v) :
    m.declaratorMarks d ⊆ m.declaratorMarks i := by
  induction hd with
  | here => exact List.Subset.refl _
  | @next d j k _ _ _ hd htarget hinit hcomma ih =>
    have hle := hd.le
    have hlt := lt_of_declaratorTarget? htarget
    have hjk := le_of_initializer hinit
    refine List.Subset.trans ?_ (ih fun v hv hvd => hstray v hv (by omega))
    have hafter : m.afterTarget d m.tokens.size = j := by
      rw [(Congruent.of_outline hm.outline).afterTarget_eq, size_of_outline hm.outline, afterTarget_declarator htarget]
    have hstop : m.skipInitializer j = k := by
      unfold skipInitializer
      rw [isAt_outline hm.outline]
      rcases initializer_cases hinit with ⟨hequals, rfl⟩ | ⟨hnone, rfl⟩
      · rw [if_pos hequals]
        have hdepth : s.depthAt j = 0 := by
          obtain ⟨t, ht, hk⟩ := isAt_iff.1 (isAt_outline ho j _ ▸ hequals)
          rw [depthAt_outline ho, depthAt_eq ht, (h.steady ht (by rw [hk]; rfl)).2.1,
            frames_of_declaratorTarget? h hb ho htarget (frames_of_leadsTo h hb ho hi hd)]
          rfl
        exact initializerEnd_eq hs hm hequals hdepth hcomma fun v hv hvk => hstray v (by omega) (by omega)
      · rw [if_neg (by rw [hnone]; nofun)]
    have hmarks : m.declaratorMarks d = m.targetMarks d m.tokens.size ++ m.declaratorMarks (k + 1) := by
      rw [declaratorMarks, hafter, hstop, dif_pos (isAt_outline hm.outline k _ ▸ hcomma)]
    rw [hmarks]
    exact List.subset_append_right _ _

theorem mem_declaratorMarks (hs : scan source = .ok s) {m : Stream} (hm : m.Underlies s) {i : Nat}
    (hi : (n i).frames = []) {e : BindingElement} (he : e ∈ s.declaredElements i)
    (hname : s.isAt (s.targetOf e) .identifier) (hstray : ∀ v, i ≤ v → v < s.targetOf e → ¬ s.Strays v)
    (hkeys : ∀ p ∈ s.declaredElements i, p.inObject → p.start ≤ s.targetOf e → s.startsProperty p.start) :
    s.elementMark e ∈ m.declaratorMarks i := by
  obtain ⟨d, names, simple, j, hd, htarget, hmem, hsubset⟩ := exists_of_mem_declaredElements .here he
  have hsize := (lt_of_declaratorTarget? htarget).2
  have hself := targetOf_declarator htarget
  have hle := s.le_targetOf e
  have hde : d ≤ e.start := by
    rcases hmem with rfl | hmem
    · exact Nat.le_refl d
    · exact Nat.le_of_lt (lt_start_of_mem_patternElements hmem)
  refine declaratorMarks_subset h hb ho hs hm hi hd (fun v hv hvd => hstray v hv (by omega)) ?_
  apply targetMarks_subset_declaratorMarks
  rw [(Congruent.of_outline hm.outline).targetMarks_eq, size_of_outline hm.outline]
  rcases hmem with rfl | hmem
  · rw [elementMark, if_neg (by simp), hself, targetMarks_of_identifier hsize (hself ▸ hname)]
    exact List.mem_singleton.2 rfl
  · exact mem_targetMarks hs hsize hmem hname fun p hp => hkeys p (hsubset hp)

end

theorem siteMarks_of_declaresVariables {k : Nat} {t : Token} (ht : s.tokens[k]? = some t)
    (hk : t.kind.declaresVariables) : s.siteMarks k = s.declaratorMarks (k + 1) := by
  unfold siteMarks
  rw [ht]
  dsimp only
  generalize t.kind = kind at hk
  cases kind with
  | keyword word => exact if_pos hk
  | _ => cases hk

/-- The names that statements collect from a declarator list at module level have been marked as declarations, if no
token before the name strays and the properties of object patterns begin as properties. -/
theorem declared_names_marked (hs : scan source = .ok s) {k j : Nat} {t : Token} (ht : s.tokens[k]? = some t)
    (htop : t.isTopLevel) (hk : t.kind.declaresVariables) {ds : List Declarator}
    (hds : s.declarators (k + 1) = .ok (ds, j)) :
    ds.flatMap (·.names) = (s.declaredElements (k + 1)).filterMap s.boundName? ∧
      ∀ e ∈ s.declaredElements (k + 1), ∀ u, s.tokens[s.targetOf e]? = some u → u.kind = .identifier →
        (∀ v, k < v → v < s.targetOf e → ¬ s.Strays v) →
        (∀ p ∈ s.declaredElements (k + 1), p.inObject → p.start ≤ s.targetOf e → s.startsProperty p.start) →
        u.role = some .declaration := by
  refine ⟨names_eq hds, fun e he u hu hku hstray hkeys => ?_⟩
  obtain ⟨r, hr, hfinal⟩ := map_eq_ok_iff.1 hs
  obtain ⟨n, h⟩ := exists_history hr
  have hb := bracketed_of_read hr
  have ho : s.outline = r.outline := hfinal ▸ outline_markSites r _
  have hname : s.isAt (s.targetOf e) .identifier := isAt_iff.2 ⟨u, hu, hku⟩
  have hframes := frames_of_isTopLevel h ho ht (Kind.isSteady_of_declaresVariables hk) htop
  have hbegins : r.beginsTarget (k + 1) := by
    refine beginsTarget_succ (isAt_outline ho k _ ▸ isAt_iff.2 ⟨t, ht, rfl⟩) ?_
    exact Kind.precedesTarget_of_declaresVariables hk
  -- The mark is set when the walk over binding sites comes to `k`, whatever was marked before, and then stays.
  have hrole : r.assignRoles.markSites.role? (s.targetOf e) = some .declaration := by
    have hsize : k < r.assignRoles.tokens.size := by
      rw [size_of_outline ((outline_assignRoles r).trans ho.symm)]
      exact lt_size_of_getElem? ht
    have hstage : ((List.range k).foldl markSite r.assignRoles).Underlies s := hfinal ▸ underlies_stage hsize
    obtain ⟨t', ht', hout⟩ := exists_of_outline hstage.outline.symm ht
    refine role?_of_mem_siteMarks hsize ?_ fun m => role?_mark_element h hb ho hr hframes hbegins he hname
    rw [siteMarks_of_declaresVariables ht' ((same_of_outline hout).1 ▸ hk)]
    exact mem_declaratorMarks h hb ho hs hstage hframes he hname hstray hkeys
  rw [hfinal, role?, hu] at hrole
  exact hrole

theorem declared_names_marked_list :
    let source := "let \x7b a: [b = 1, ...c], d \x7d = f(), e = `$\x7bg\x7d`, h;".toList
    ∃ s ds j u, scan source = .ok s ∧ s.declarators 1 = .ok (ds, j) ∧ ds.flatMap (·.names) = ["b", "c", "d", "e", "h"] ∧
      s.tokens[26]? = some u ∧ u.text = "h" ∧ u.role = some .declaration := by
  intro source
  obtain ⟨s, hs, h⟩ := exists_ok_of_test (x := scan source) (fun s =>
    s.tokens[0]?.any (fun t => t.isTopLevel && t.kind.declaresVariables) &&
      s.tokens[26]?.any (fun u => u.kind = .identifier && u.text = "h") &&
      (s.declarators 1).toOption.any (fun p => p.1.flatMap (·.names) = ["b", "c", "d", "e", "h"]) &&
      ⟨false, 26⟩ ∈ s.declaredElements 1 && s.targetOf ⟨false, 26⟩ = 26 &&
      ((List.range 26).all fun v => !s.Strays v) &&
      (s.declaredElements 1).all fun p => !p.inObject || s.startsProperty p.start) (by decide +kernel)
  simp only [Bool.and_eq_true, decide_eq_true_eq] at h
  obtain ⟨⟨⟨⟨⟨⟨hfirst, hlast⟩, hds⟩, hmem⟩, htarget⟩, hstray⟩, hkeys⟩ := h
  obtain ⟨t, ht, hfirst⟩ := (Option.any_eq_true _ _).1 hfirst
  obtain ⟨u, hu, hlast⟩ := (Option.any_eq_true _ _).1 hlast
  obtain ⟨⟨ds, j⟩, hds, hnames⟩ := exists_ok_of_test _ hds
  simp only [Bool.and_eq_true, decide_eq_true_eq] at hfirst hlast hnames
  refine ⟨s, ds, j, u, hs, hds, hnames, hu, hlast.2, ?_⟩
  refine (declared_names_marked hs ht hfirst.1 hfirst.2 hds).2 _ hmem u (by rwa [htarget]) hlast.1 ?_ ?_
  · intro v _ hv
    rw [htarget] at hv
    simpa using List.all_eq_true.1 hstray v (List.mem_range.2 hv)
  · intro p hp hin _
    simpa [hin] using List.all_eq_true.1 hkeys p hp

/-- The name of an attribute that is first on its line ends the initializer for binding sites, so they do not come to
the next declarator. -/
theorem declared_name_unmarked :
    let source := "let a = <div\n id=\"x\" />, b = 1;".toList
    ∃ s t u ds j, scan source = .ok s ∧ s.tokens[0]? = some t ∧ t.isTopLevel ∧ t.kind.declaresVariables ∧
      s.declarators 1 = .ok (ds, j) ∧ ds.flatMap (·.names) = ["a", "b"] ∧ ⟨false, 10⟩ ∈ s.declaredElements 1 ∧
      s.tokens[s.targetOf ⟨false, 10⟩]? = some u ∧ u.kind = .identifier ∧ u.text = "b" ∧ u.role = some .reference := by
  intro source
  obtain ⟨s, hs, h⟩ := exists_ok_of_test (x := scan source) (fun s =>
    s.tokens[0]?.any (fun t => t.isTopLevel && t.kind.declaresVariables) &&
      s.tokens[s.targetOf ⟨false, 10⟩]?.any (fun u =>
        u.kind = .identifier && u.text = "b" && u.role = some .reference) &&
      (s.declarators 1).toOption.any (fun p => p.1.flatMap (·.names) = ["a", "b"]) &&
      ⟨false, 10⟩ ∈ s.declaredElements 1) (by decide +kernel)
  simp only [Bool.and_eq_true, decide_eq_true_eq] at h
  obtain ⟨⟨⟨hfirst, hlast⟩, hds⟩, hmem⟩ := h
  obtain ⟨t, ht, hfirst⟩ := (Option.any_eq_true _ _).1 hfirst
  obtain ⟨u, hu, hlast⟩ := (Option.any_eq_true _ _).1 hlast
  obtain ⟨⟨ds, j⟩, hds, hnames⟩ := exists_ok_of_test _ hds
  simp only [Bool.and_eq_true, decide_eq_true_eq] at hfirst hlast hnames
  exact ⟨s, t, u, ds, j, hs, ht, hfirst.1, hfirst.2, hds, hnames, hmem, hu, hlast.1.1, hlast.1.2, hlast.2⟩

end Stream

end ModuleLowering
