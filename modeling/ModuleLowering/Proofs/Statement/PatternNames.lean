import ModuleLowering.Proofs.Role.Declared
import ModuleLowering.Proofs.Statement.BindingPatterns
import ModuleLowering.Proofs.Statement.ExportForm

namespace ModuleLowering

namespace Stream

variable {source : List Char} {s : Stream} {level : Nat → Nat}

def targetNames (s : Stream) (i : Nat) : List String :=
  if s.opensPattern i then s.patternNames i else (s.identifier? i).toList

def Spells (s : Stream) (sites : List Nat) (names : List String) : Prop := sites.map s.identifier? = names.map some

theorem Spells.append {sites rest : List Nat} {names names' : List String} (h : s.Spells sites names)
    (h' : s.Spells rest names') : s.Spells (sites ++ rest) (names ++ names') := by
  rw [Spells, List.map_append, List.map_append]
  exact congrArg₂ (· ++ ·) h h'

theorem elementNames_cons {inObject : Bool} {depth i stop : Nat} (hi : i < stop ∧ i < s.tokens.size) :
    s.elementNames inObject depth i stop = s.targetNames (s.elementTarget inObject i) ++
      s.elementNames inObject depth (s.commaAtDepth depth (s.elementTarget inObject i) stop + 1) stop := by
  rw [elementNames, if_pos hi]
  dsimp only
  congr 1
  unfold targetNames
  split
  · rename_i hkind
    rw [if_neg (by simp [opensPattern, isAt, hkind])]
  · rename_i hkind
    rw [if_pos (by simp [opensPattern, isAt, hkind])]
  · rename_i hkind
    rw [if_pos (by simp [opensPattern, isAt, hkind])]
  · rename_i hname hbrace hbracket
    rw [if_neg (by simpa [opensPattern, isAt] using ⟨hbrace, hbracket⟩), identifier?_eq_none hname]
    rfl

theorem patternNames_of_closer? {i stop : Nat} {t : Token} (ht : s.tokens[i]? = some t)
    (hstop : s.closer? i = some stop) :
    s.patternNames i = s.elementNames (t.kind = .openBrace) (t.depth + 1) (i + 1) stop := by
  rw [patternNames]
  split
  · rename_i ht' hstop'
    rw [ht] at ht'
    rw [hstop] at hstop'
    cases ht'
    cases hstop'
    rfl
  · rename_i hnot
    exact (hnot t stop ht hstop).elim

theorem commaAtDepth_eq {depth i j stop : Nat} (hij : i ≤ j) (hjs : j ≤ stop)
    (hfree : ∀ k, i ≤ k → k < j → s.isAt k .comma → depth < s.depthAt k)
    (hend : j < stop → s.isAt j .comma ∧ s.depthAt j = depth) : s.commaAtDepth depth i stop = j := by
  have hiff (k : Nat) : (s.tokens[k]?.any fun t => t.kind = .comma && t.depth = depth) ↔
      s.isAt k .comma ∧ s.depthAt k = depth := by
    cases ht : s.tokens[k]? <;> simp [isAt, kind?, depthAt, ht]
  fun_induction commaAtDepth s depth i stop with
  | case1 i _ hcomma =>
    obtain ⟨hcomma, hdepth⟩ := (hiff i).1 hcomma
    refine Nat.le_antisymm hij (Nat.le_of_not_lt fun hlt => ?_)
    have := hfree i (Nat.le_refl i) hlt hcomma
    omega
  | case2 i hi hnot ih =>
    have hne : i ≠ j := by
      rintro rfl
      exact hnot ((hiff i).2 (hend hi))
    exact ih (by omega) fun k hik => hfree k (by omega)
  | case3 => omega

theorem not_isAt_of_test {p : Kind → Bool} {i : Nat} {kind kind' : Kind} (h : s.isAt i kind) (hp : p kind)
    (hnot : p kind' = false) : ¬ s.isAt i kind' := by
  refine not_isAt_of_isAt h ?_
  rintro rfl
  rw [hp] at hnot
  cases hnot

theorem afterKey_eq (hs : scan source = .ok s) (hl : s.Leveled level) {i j : Nat} (h : s.KeyAt i j) :
    s.afterKey i = j := by
  unfold afterKey
  cases h with
  | name hkind hname => rw [if_neg (not_isAt_of_test hkind hname rfl)]
  | computed hopen hinside hclose =>
    rw [if_pos hopen, skip, (hinside.keeps hl).closer? hs hl hopen rfl hclose]

theorem KeyAt.not_ellipsis {i j : Nat} (h : s.KeyAt i j) : ¬ s.isAt i .ellipsis := by
  cases h with
  | name hkind hname => exact not_isAt_of_test hkind hname rfl
  | computed hopen => exact not_isAt_of_isAt hopen nofun

theorem TargetAt.not_ellipsis {i j : Nat} {sites aside : List Nat} (h : s.TargetAt i j sites aside) :
    ¬ s.isAt i .ellipsis := by
  cases h with
  | name hname => exact not_isAt_of_isAt hname nofun
  | object hopen => exact not_isAt_of_isAt hopen nofun
  | array hopen => exact not_isAt_of_isAt hopen nofun

theorem elementTarget_of_item {i : Nat} (h : ¬ s.isAt i .ellipsis) : s.elementTarget false i = i := by
  rw [elementTarget, if_neg h, if_neg (by simp)]

theorem elementTarget_of_name {i : Nat} (hname : s.isAt i .identifier) (hcolon : ¬ s.isAt (i + 1) .colon) :
    s.elementTarget true i = i := by
  have hrest : ¬ s.isAt i .ellipsis := not_isAt_of_isAt hname nofun
  have hbracket : ¬ s.isAt i .openBracket := not_isAt_of_isAt hname nofun
  rw [elementTarget, if_neg hrest, Bool.true_and, afterKey, if_neg hbracket, if_neg hcolon]

theorem elementTarget_of_key (hs : scan source = .ok s) (hl : s.Leveled level) {i j : Nat} (h : s.KeyAt i j)
    (hcolon : s.isAt j .colon) : s.elementTarget true i = j + 1 := by
  rw [elementTarget, if_neg h.not_ellipsis, Bool.true_and, afterKey_eq hs hl h, if_pos hcolon]

theorem elementTarget_of_rest {inObject : Bool} {i : Nat} (h : s.isAt i .ellipsis) :
    s.elementTarget inObject i = i + 1 := if_pos h

theorem not_colon_of_defaultAt {i j : Nat} (h : s.DefaultAt i j) {kind : Kind} (hend : s.isAt j kind)
    (hkind : kind.endsElement) : ¬ s.isAt i .colon := by
  cases h with
  | none => exact not_isAt_of_test hend hkind rfl
  | value hequals => exact not_isAt_of_isAt hequals nofun

theorem not_opensPattern {i : Nat} (hbrace : ¬ s.isAt i .openBrace) (hbracket : ¬ s.isAt i .openBracket) :
    ¬ s.opensPattern i := by
  rw [opensPattern, Bool.or_eq_true_iff]
  exact not_or.2 ⟨hbrace, hbracket⟩

theorem targetNames_eq_nil {i : Nat} {kind : Kind} (h : s.isAt i kind) (hkind : kind.endsElement) :
    s.targetNames i = [] := by
  have hopens := not_opensPattern (not_isAt_of_test h hkind rfl) (not_isAt_of_test h hkind rfl)
  have hname : ¬ s.isAt i .identifier := not_isAt_of_test h hkind rfl
  rw [targetNames, if_neg hopens, identifier?_eq_none fun heq => hname (decide_eq_true heq)]
  rfl

theorem spells_of_name {i : Nat} (h : s.isAt i .identifier) : s.Spells [i] (s.targetNames i) := by
  have hopens := not_opensPattern (not_isAt_of_isAt h nofun) (not_isAt_of_isAt h nofun)
  obtain ⟨t, ht, hkind⟩ := isAt_iff.1 h
  have hname : s.identifier? i = some t.text := by simp [identifier?, ht, hkind]
  rw [targetNames, if_neg hopens, Spells, List.map_singleton, hname]
  rfl

theorem targetNames_of_brackets (hs : scan source = .ok s) (hl : s.Leveled level) (inObject : Bool) {i j : Nat}
    {a b : Kind} (hopen : s.isAt i a) (ha : a = if inObject then .openBrace else .openBracket)
    (hcloser : a.closer? = some b) (hinside : s.Keeps level .brackets (i + 1) j) (hclose : s.isAt j b) :
    s.targetNames i = s.elementNames inObject (level (i + 1)) (i + 1) j := by
  have hpartner := hinside.closer? hs hl hopen hcloser hclose
  have hrise := (Kind.shift_of_mate? (Kind.mate?_of_closer? hcloser)).2.1
  have hobject : decide (a = .openBrace) = inObject := by rw [ha]; cases inObject <;> rfl
  have hopens : s.opensPattern i := by
    rw [ha] at hopen
    rw [opensPattern, Bool.or_eq_true_iff]
    cases inObject with
    | true => exact .inl hopen
    | false => exact .inr hopen
  obtain ⟨_, hlevel⟩ := hl.of_isAt hopen
  obtain ⟨t, ht, rfl⟩ := isAt_iff.1 hopen
  rw [depthAt_eq ht, hrise] at hlevel
  rw [targetNames, if_pos hopens, patternNames_of_closer? ht hpartner, hlevel, hobject]

theorem elementNames_of_element (hl : s.Leveled level) {inObject : Bool} {i j stop : Nat} {sites aside : List Nat}
    (h : s.ElementAt inObject i j sites aside) (htarget : s.elementTarget inObject i ≤ j) (hi : i < stop)
    (hjs : j ≤ stop) (hstop : stop < s.tokens.size) (hend : j < stop → s.isAt j .comma) :
    s.elementNames inObject (level i) i stop =
      s.targetNames (s.elementTarget inObject i) ++ s.elementNames inObject (level i) (j + 1) stop := by
  have hkeeps := h.keeps hl
  have hle := s.le_elementTarget inObject i
  rw [elementNames_cons ⟨hi, Nat.lt_trans hi hstop⟩, commaAtDepth_eq htarget hjs]
  · exact fun k hik hkj hk => hkeeps.comma k (Nat.le_trans hle hik) hkj hk
  · intro hlt
    obtain ⟨hlevel, _⟩ := hl.of_isAt (hend hlt)
    exact ⟨hend hlt, (hkeeps.level_eq ▸ hlevel).symm⟩

theorem elementNames_eq_nil {inObject : Bool} {depth i stop : Nat} (h : stop ≤ i) :
    s.elementNames inObject depth i stop = [] := by
  rw [elementNames, if_neg (by omega)]

mutual

theorem TargetAt.spells (hs : scan source = .ok s) (hl : s.Leveled level) {i j : Nat} {sites aside : List Nat}
    (h : s.TargetAt i j sites aside) : s.Spells sites (s.targetNames i) := by
  match h with
  | .name hname => exact spells_of_name hname
  | .object hopen hinside hclose =>
    rw [targetNames_of_brackets hs hl true hopen rfl rfl (hinside.keeps hl) hclose]
    exact hinside.spells hs hl hclose rfl
  | .array hopen hinside hclose =>
    rw [targetNames_of_brackets hs hl false hopen rfl rfl (hinside.keeps hl) hclose]
    exact hinside.spells hs hl hclose rfl

theorem ElementsAt.spells (hs : scan source = .ok s) (hl : s.Leveled level) {inObject : Bool} {i j : Nat}
    {sites aside : List Nat} (h : s.ElementsAt inObject i j sites aside) {kind : Kind} (hend : s.isAt j kind)
    (hkind : kind.endsElement) : s.Spells sites (s.elementNames inObject (level i) i j) := by
  match h with
  | .nil =>
    rw [elementNames_eq_nil (Nat.le_refl _)]
    rfl
  | .last helement =>
    obtain ⟨hspells, htarget⟩ := helement.spells hs hl hend hkind
    rcases Nat.lt_or_eq_of_le (helement.keeps hl).le with hij | rfl
    · rw [elementNames_of_element hl helement htarget hij (Nat.le_refl _) (lt_size_of_isAt hend) (by omega),
        elementNames_eq_nil (Nat.le_succ _), List.append_nil]
      exact hspells
    · rw [elementNames_eq_nil (Nat.le_refl _), (helement.inOrder hl).eq_nil]
      rfl
  | .next helement hcomma hrest =>
    have hle := (helement.keeps hl).le
    have hrestLe := (hrest.keeps hl).le
    obtain ⟨hspells, htarget⟩ := helement.spells hs hl hcomma rfl
    obtain ⟨hbefore, hafter⟩ := hl.of_isAt hcomma
    rw [elementNames_of_element hl helement htarget (by omega) (by omega) (lt_size_of_isAt hend) fun _ => hcomma,
      ← (helement.keeps hl).level_eq, hbefore.trans hafter.symm]
    exact hspells.append (hrest.spells hs hl hend hkind)

theorem ElementAt.spells (hs : scan source = .ok s) (hl : s.Leveled level) {inObject : Bool} {i j : Nat}
    {sites aside : List Nat} (h : s.ElementAt inObject i j sites aside) {kind : Kind} (hend : s.isAt j kind)
    (hkind : kind.endsElement) :
    s.Spells sites (s.targetNames (s.elementTarget inObject i)) ∧ s.elementTarget inObject i ≤ j := by
  match h with
  | .hole =>
    rw [elementTarget_of_item (not_isAt_of_test hend hkind rfl), targetNames_eq_nil hend hkind]
    exact ⟨rfl, Nat.le_refl i⟩
  | .item htarget hdefault =>
    rw [elementTarget_of_item htarget.not_ellipsis]
    exact ⟨htarget.spells hs hl, Nat.le_trans (htarget.keeps hl).le (hdefault.keeps hl).le⟩
  | .shorthand hname hdefault =>
    rw [elementTarget_of_name hname (not_colon_of_defaultAt hdefault hend hkind)]
    exact ⟨spells_of_name hname, Nat.le_of_succ_le (hdefault.keeps hl).le⟩
  | .keyed hkey hcolon htarget hdefault =>
    rw [elementTarget_of_key hs hl hkey hcolon]
    exact ⟨htarget.spells hs hl, Nat.le_trans (htarget.keeps hl).le (hdefault.keeps hl).le⟩
  | .rest hellipsis htarget =>
    rw [elementTarget_of_rest hellipsis]
    exact ⟨htarget.spells hs hl, (htarget.keeps hl).le⟩

end

theorem TargetAt.declaratorTarget? (hs : scan source = .ok s) (hl : s.Leveled level) {i j : Nat}
    {sites aside : List Nat} (h : s.TargetAt i j sites aside) :
    s.declaratorTarget? i = some (s.targetNames i, s.isAt i .identifier, j) := by
  have hbrackets {a b : Kind} {k : Nat} (hopen : s.isAt i a) (hopens : a = .openBrace ∨ a = .openBracket)
      (hcloser : a.closer? = some b) (hinside : s.Keeps level .brackets (i + 1) k) (hclose : s.isAt k b) :
      s.declaratorTarget? i = some (s.targetNames i, s.isAt i .identifier, k + 1) := by
    have hpartner := hinside.closer? hs hl hopen hcloser hclose
    obtain ⟨t, ht, rfl⟩ := isAt_iff.1 hopen
    unfold Stream.declaratorTarget? targetNames
    obtain hk | hk := hopens <;> simp [ht, hk, hpartner, opensPattern, isAt, kind?]
  match h with
  | .name hname =>
    obtain ⟨t, ht, hk⟩ := isAt_iff.1 hname
    unfold Stream.declaratorTarget? targetNames
    simp [ht, hk, opensPattern, isAt, kind?, identifier?]
  | .object hopen hinside hclose => exact hbrackets hopen (.inl rfl) rfl (hinside.keeps hl) hclose
  | .array hopen hinside hclose => exact hbrackets hopen (.inr rfl) rfl (hinside.keeps hl) hclose

theorem LeadsTo.of_next {i j k d : Nat} {names : List String} {simple : Bool} {equalsEnd : Option Nat}
    (htarget : s.declaratorTarget? i = some (names, simple, j)) (hinit : s.initializer j = .ok (equalsEnd, k))
    (hcomma : s.isAt k .comma) (h : s.LeadsTo (k + 1) d) : s.LeadsTo i d := by
  induction h with
  | here => exact .next .here htarget hinit hcomma
  | next _ htarget' hinit' hcomma' ih => exact .next ih htarget' hinit' hcomma'

theorem leadsTo_iff {i j k d : Nat} {names : List String} {simple : Bool} {equalsEnd : Option Nat}
    (htarget : s.declaratorTarget? i = some (names, simple, j)) (hinit : s.initializer j = .ok (equalsEnd, k)) :
    s.LeadsTo i d ↔ d = i ∨ (s.isAt k .comma ∧ s.LeadsTo (k + 1) d) := by
  constructor
  · intro h
    induction h with
    | here => exact .inl rfl
    | next _ htarget' hinit' hcomma' ih =>
      obtain rfl | ⟨hcomma, h⟩ := ih
      · rw [htarget] at htarget'
        cases htarget'
        rw [hinit] at hinit'
        cases hinit'
        exact .inr ⟨hcomma', .here⟩
      · exact .inr ⟨hcomma, .next h htarget' hinit' hcomma'⟩
  · rintro (rfl | ⟨hcomma, h⟩)
    · exact .here
    · exact h.of_next htarget hinit hcomma

theorem exists_starts {i j : Nat} {ds : List Declarator} (h : s.declarators i = .ok (ds, j)) :
    ∃ starts : List Nat, starts.Pairwise (· < ·) ∧ (∀ d, d ∈ starts ↔ s.LeadsTo i d) ∧
      List.Forall₂ (fun d x => ∃ k, s.declaratorTarget? d = some (x.names, x.simple, k)) starts ds := by
  fun_induction declarators s i generalizing ds j with
  | case1 => cases h
  | case2 => cases h
  | case3 i names simple n htarget equalsEnd k hinit _ hcomma =>
    rename_i ih
    obtain ⟨⟨rest, m⟩, hm, he⟩ := map_eq_ok_iff.1 h
    cases he
    obtain ⟨starts, hincreasing, hmem, hall⟩ := ih hm
    have hlt := lt_of_declaratorTarget? htarget
    have hle := le_of_initializer hinit
    refine ⟨i :: starts, List.pairwise_cons.2 ⟨fun d hd => ?_, hincreasing⟩, fun d => ?_,
      .cons ⟨n, htarget⟩ hall⟩
    · have := ((hmem d).1 hd).le
      omega
    · rw [List.mem_cons, hmem, leadsTo_iff htarget hinit, and_iff_right hcomma]
  | case4 i names simple n htarget equalsEnd k hinit _ =>
    rename_i hcomma
    cases h
    refine ⟨[i], List.pairwise_singleton _ _, fun d => ?_, .cons ⟨n, htarget⟩ .nil⟩
    rw [List.mem_singleton, leadsTo_iff htarget hinit, or_iff_left fun h => hcomma h.1]

/-- A declarator has the names that its pattern binds, one for each place in the order of the source, and none of the
other identifiers in the pattern. An export statement exports them all. -/
theorem names_of_patterns (hs : scan source = .ok s) :
    (∀ i j sites aside, s.TargetAt i j sites aside → InOrder i j sites ∧ s.Partitions i j sites aside ∧
      ∃ names, s.declaratorTarget? i = some (names, s.isAt i .identifier, j) ∧ s.Spells sites names) ∧
    (∀ i j ds, s.declarators i = .ok (ds, j) → ∃ starts : List Nat, starts.Pairwise (· < ·) ∧
      (∀ d, d ∈ starts ↔ s.LeadsTo i d) ∧
      List.Forall₂ (fun d x => ∀ k sites aside, s.TargetAt d k sites aside → s.Spells sites x.names) starts ds) ∧
    ∀ i keyword ds stop next, s.exportStatement i = .ok (.variableList keyword ds stop, next) →
      (∃ j, s.declarators (i + 2) = .ok (ds, j)) ∧
      (ExportStatement.variableList keyword ds stop).entries.map (·.name) = ds.flatMap (·.names) := by
  obtain ⟨level, hl⟩ := exists_leveled hs
  refine ⟨fun i j sites aside h => ?_, fun i j ds h => ?_, fun i keyword ds stop next h => ?_⟩
  · exact ⟨h.inOrder hl, h.partitions hl, _, h.declaratorTarget? hs hl, h.spells hs hl⟩
  · obtain ⟨starts, hincreasing, hmem, hall⟩ := exists_starts h
    refine ⟨starts, hincreasing, hmem, hall.imp ?_⟩
    rintro d x ⟨k, htarget⟩ l sites aside hsites
    rw [hsites.declaratorTarget? hs hl] at htarget
    rw [← (Prod.mk.inj (Option.some.inj htarget)).1]
    exact hsites.spells hs hl
  · cases exportForm_of_exportStatement h with
    | variableList _ _ hds => exact ⟨⟨_, hds⟩, by simp [ExportStatement.entries, Function.comp_def]⟩

theorem isAt_of_kinds {kinds : List Kind} (h : s.tokens.toList.map (·.kind) = kinds) {k : Nat} {kind : Kind}
    (hk : kinds[k]? = some kind) : s.isAt k kind := by
  rw [← h, List.getElem?_map, Array.getElem?_toList] at hk
  exact decide_eq_true hk

theorem names_of_patterns_nested :
    let source :=
      "export const \x7b a, b: [c = f(d, 1), , ...e], [`g$\x7bh\x7d`]: i = \x7b j, k \x7d \x7d = l;".toList
    ∃ s aside keyword ds stop next, scan source = .ok s ∧ s.TargetAt 2 36 [3, 8, 19, 28] aside ∧
      ([3, 8, 19, 28] ++ aside).Perm [3, 5, 8, 10, 12, 19, 24, 28, 31, 33] ∧
      s.declaratorTarget? 2 = some (["a", "c", "e", "i"], false, 36) ∧
      s.exportStatement 0 = .ok (.variableList keyword ds stop, next) ∧
      (ExportStatement.variableList keyword ds stop).entries.map (·.name) = ["a", "c", "e", "i"] := by
  intro source
  obtain ⟨s, hs, h⟩ := exists_ok_of_test (x := scan source) (fun s =>
    decide (s.tokens.toList.map (·.kind) =
      [.keyword .«export», .keyword .const, .openBrace, .identifier, .comma, .identifier, .colon, .openBracket,
        .identifier, .equals, .identifier, .openParen, .identifier, .comma, .number, .closeParen, .comma, .comma,
        .ellipsis, .identifier, .closeBracket, .comma, .openBracket, .templateHead, .identifier, .templateTail,
        .closeBracket, .colon, .identifier, .equals, .openBrace, .identifier, .comma, .identifier, .closeBrace,
        .closeBrace, .equals, .identifier, .semicolon]) &&
      decide ([3, 8, 19, 28].map s.identifier? = ["a", "c", "e", "i"].map some) &&
      decide (s.identifiersIn 2 36 = [3, 5, 8, 10, 12, 19, 24, 28, 31, 33]) &&
      (s.exportStatement 0).toOption.any fun p =>
        decide (p = (ExportStatement.variableList ⟨0, 6⟩ [⟨["a", "c", "e", "i"], false, some 71⟩] 74, 39)))
    (by decide +kernel)
  simp only [Bool.and_eq_true, decide_eq_true_eq] at h
  obtain ⟨⟨⟨hkinds, hspelled⟩, hidentifiers⟩, h⟩ := h
  obtain ⟨_, hstatement, h⟩ := exists_ok_of_test _ h
  rw [of_decide_eq_true h] at hstatement
  have hat {k : Nat} {kind : Kind} := @isAt_of_kinds s _ hkinds k kind
  have hcall : s.RunAt .value 10 16 :=
    .token (hat rfl) rfl (.group (hat rfl) rfl
      (.token (hat rfl) rfl (.token (hat rfl) rfl (.token (hat rfl) rfl .nil))) (hat rfl) .nil)
  obtain ⟨inner, hlist⟩ : ∃ aside, s.TargetAt 7 21 [8, 19] aside :=
    ⟨_, .array (hat rfl) (.next (.item (.name (hat rfl)) (.value (hat rfl) hcall)) (hat rfl)
      (.next .hole (hat rfl) (.last (.rest (hat rfl) (.name (hat rfl)))))) (hat rfl)⟩
  have hkey : s.KeyAt 22 27 :=
    .computed (hat rfl) (.group (hat rfl) rfl (.token (hat rfl) rfl .nil) (hat rfl) .nil) (hat rfl)
  have hvalue : s.DefaultAt 29 35 :=
    .value (hat rfl) (.group (hat rfl) rfl
      (.token (hat rfl) rfl (.token (hat rfl) rfl (.token (hat rfl) rfl .nil))) (hat rfl) .nil)
  obtain ⟨aside, hpattern⟩ : ∃ aside, s.TargetAt 2 36 [3, 8, 19, 28] aside :=
    ⟨_, .object (hat rfl) (.next (.shorthand (hat rfl) .none) (hat rfl)
      (.next (.keyed (.name (hat rfl) rfl) (hat rfl) hlist .none) (hat rfl)
        (.last (.keyed hkey (hat rfl) (.name (hat rfl)) hvalue)))) (hat rfl)⟩
  have hunique {names : List String} (hnames : s.Spells [3, 8, 19, 28] names) : names = ["a", "c", "e", "i"] :=
    List.map_injective_iff.2 (Option.some_injective _) (hnames.symm.trans hspelled)
  obtain ⟨htargets, hlists, hexports⟩ := names_of_patterns hs
  obtain ⟨⟨j, hds⟩, hentries⟩ := hexports _ _ _ _ _ hstatement
  obtain ⟨starts, _, hmem, hall⟩ := hlists _ _ _ hds
  obtain ⟨_, hpartitions, names, htarget, hnames⟩ := htargets _ _ _ _ hpattern
  have hbrace : s.isAt 2 .openBrace := hat rfl
  have hname : s.isAt 2 .identifier = false := Bool.eq_false_iff.2 (not_isAt_of_isAt hbrace (by decide))
  rw [hunique hnames, hname] at htarget
  rw [Partitions, hidentifiers] at hpartitions
  refine ⟨s, aside, _, _, _, _, hs, hpattern, hpartitions, htarget, hstatement, ?_⟩
  cases hall with
  | cons hx hnil =>
    cases hnil
    obtain rfl := List.mem_singleton.1 ((hmem 2).2 .here)
    rw [hentries, List.flatMap_singleton, hunique (hx _ _ _ hpattern)]

end Stream

end ModuleLowering
