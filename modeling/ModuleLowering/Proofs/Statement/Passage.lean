import ModuleLowering.Proofs.Role.WellFormed
import ModuleLowering.Statement.ExportSyntax
import ModuleLowering.Statement.Import

namespace ModuleLowering

def Kind.isModuleKeyword (kind : Kind) : Bool := kind = .keyword .«import» || kind = .keyword .«export»

def Token.isModuleKeyword (t : Token) : Bool := t.isTopLevel && t.kind.isModuleKeyword

theorem Token.isModuleKeyword_of_kind {t : Token} (h : t.kind.isModuleKeyword = false) :
    t.isModuleKeyword = false := by
  rw [isModuleKeyword, h, Bool.and_false]

theorem Token.isModuleKeyword_of_depth {t : Token} (h : 0 < t.depth) : t.isModuleKeyword = false := by
  have : t.depth ≠ 0 := by omega
  simp [isModuleKeyword, isTopLevel, this]

theorem Region.isModuleKeyword_of_closer? {region : Region} {kind : Kind} (h : region.closer? = some kind) :
    kind.isModuleKeyword = false := by
  cases region <;> cases h <;> rfl

theorem Kind.isModuleKeyword_of_declaresVariables {kind : Kind} (h : kind.declaresVariables = true) :
    kind.isModuleKeyword = false := by
  cases kind with
  | keyword word => cases word <;> first | rfl | cases h
  | _ => cases h

namespace Stream

theorem isAt_iff {s : Stream} {i : Nat} {kind : Kind} :
    s.isAt i kind = true ↔ ∃ t, s.tokens[i]? = some t ∧ t.kind = kind := by
  simp [isAt, kind?]

theorem isWordAt_iff {s : Stream} {i : Nat} {word : String} :
    s.isWordAt i word = true ↔ ∃ t, s.tokens[i]? = some t ∧ t.kind = .identifier ∧ t.text = word := by
  simp [isWordAt, Token.isWord, Option.any_eq_true]

theorem isAt_of_isWordAt {s : Stream} {i : Nat} {word : String} (h : s.isWordAt i word) :
    s.isAt i .identifier := by
  obtain ⟨t, ht, hk, _⟩ := isWordAt_iff.1 h
  exact isAt_iff.2 ⟨t, ht, hk⟩

theorem isAt_of_identifier? {s : Stream} {i : Nat} {name : String} (h : s.identifier? i = some name) :
    s.isAt i .identifier := by
  obtain ⟨t, ht, h⟩ := Option.bind_eq_some_iff.1 h
  split at h
  · exact isAt_iff.2 ⟨t, ht, ‹_›⟩
  · cases h

theorem isAt_of_specifier? {s : Stream} {i : Nat} {specifier : Specifier}
    (h : s.specifier? i = some specifier) : s.isAt i .string := by
  obtain ⟨t, ht, h⟩ := Option.bind_eq_some_iff.1 h
  split at h
  · exact isAt_iff.2 ⟨t, ht, ‹_›⟩
  · cases h

theorem kind_eq_of_isAt {s : Stream} {i : Nat} {kind kind' : Kind} (h : s.isAt i kind)
    (h' : s.isAt i kind') : kind = kind' := by
  obtain ⟨t, ht, rfl⟩ := isAt_iff.1 h
  obtain ⟨u, hu, rfl⟩ := isAt_iff.1 h'
  rw [ht] at hu
  rw [Option.some.inj hu]

def Passes (s : Stream) (O : Nat → Prop) (i j : Nat) : Prop :=
  ∀ k, i ≤ k → k < j → ∃ t, s.tokens[k]? = some t ∧ (t.isModuleKeyword → O k)

variable {s : Stream} {O : Nat → Prop}

theorem Passes.nil (i : Nat) : s.Passes O i i := fun k hi hk => by omega

theorem Passes.append {i j k : Nat} (h : s.Passes O i j) (h' : s.Passes O j k) : s.Passes O i k := by
  intro n hi hk
  by_cases hj : n < j
  · exact h n hi hj
  · exact h' n (by omega) hk

theorem Passes.mono {O' : Nat → Prop} {i j : Nat} (h : s.Passes O i j) (hO : ∀ k, O k → O' k) :
    s.Passes O' i j := by
  intro k hi hk
  obtain ⟨t, ht, hto⟩ := h k hi hk
  exact ⟨t, ht, fun hkey => hO k (hto hkey)⟩

theorem Passes.le_size {i j : Nat} (h : s.Passes O i j) (hi : i ≤ s.tokens.size) : j ≤ s.tokens.size := by
  by_cases hij : i < j
  · obtain ⟨t, ht, _⟩ := h (j - 1) (by omega) (by omega)
    have := lt_size_of_getElem? ht
    omega
  · omega

theorem passes_of_isAt {i : Nat} {kind : Kind} (h : s.isAt i kind) (hk : kind.isModuleKeyword = false) :
    s.Passes O i (i + 1) := by
  intro k hi hik
  obtain rfl : k = i := by omega
  obtain ⟨t, ht, rfl⟩ := isAt_iff.1 h
  exact ⟨t, ht, fun hkey => by rw [Token.isModuleKeyword_of_kind hk] at hkey; cases hkey⟩

theorem passes_optional (i : Nat) (kind : Kind) (hk : kind.isModuleKeyword = false) :
    s.Passes O i (s.optional i kind) := by
  unfold optional
  split
  · exact passes_of_isAt ‹_› hk
  · exact .nil i

theorem passes_finish (i : Nat) : s.Passes O i (s.finish i) := passes_optional i .semicolon rfl

theorem exists_of_lt_expressionEndFrom {start i k : Nat} (hi : i ≤ k)
    (hk : k < s.expressionEndFrom start i) :
    ∃ t, s.tokens[k]? = some t ∧ s.endsExpressionAt start k t = false := by
  fun_induction expressionEndFrom s start i with
  | case1 => omega
  | case2 => omega
  | case3 i t ht hgoes ih =>
    by_cases hik : i = k
    · subst hik
      exact ⟨t, ht, Bool.not_eq_true _ ▸ hgoes⟩
    · exact ih (by omega) hk

theorem passes_expression {start : Nat} (hO : ∀ k, start ≤ k → k < s.expressionEnd start → O k) :
    s.Passes O start (s.expressionEnd start) := by
  intro k hi hk
  obtain ⟨t, ht, _⟩ := exists_of_lt_expressionEndFrom hi hk
  exact ⟨t, ht, fun _ => hO k hi hk⟩

theorem not_isAt_of_moduleName? {i : Nat} {name : ModuleName} (h : s.moduleName? i = some name) :
    ¬ s.isAt i .closeBrace := by
  obtain ⟨t, ht, h⟩ := Option.bind_eq_some_iff.1 h
  intro hclose
  obtain ⟨u, hu, hk⟩ := isAt_iff.1 hclose
  rw [ht] at hu
  cases hu
  rw [hk] at h
  cases h

theorem not_isAt_of_isAt {i : Nat} {kind kind' : Kind} (h : s.isAt i kind) (hne : kind ≠ kind') :
    ¬ s.isAt i kind' := fun h' => hne (kind_eq_of_isAt h h')

structure ListEnds (s : Stream) (i j : Nat) : Prop where
  lt : i < j
  close : s.isAt (j - 1) .closeBrace
  inner : ∀ k, i ≤ k → k + 1 < j → ¬ s.isAt k .closeBrace

theorem listEnds_of_close {i : Nat} (h : s.isAt i .closeBrace) : s.ListEnds i (i + 1) where
  lt := Nat.lt_succ_self i
  close := h
  inner := fun k hi hk => by omega

theorem not_isAt_of_lt_afterNames {i k : Nat} (hfirst : ¬ s.isAt i .closeBrace)
    (hsecond : s.isRenamed i → ¬ s.isAt (i + 2) .closeBrace) (hi : i ≤ k) (hk : k < s.afterNames i) :
    ¬ s.isAt k .closeBrace := by
  unfold afterNames at hk
  split at hk
  · rename_i hr
    rcases (show k = i ∨ k = i + 1 ∨ k = i + 2 by omega) with rfl | rfl | rfl
    · exact hfirst
    · exact not_isAt_of_isAt (isAt_of_isWordAt hr) (by decide)
    · exact hsecond hr
  · obtain rfl : k = i := by omega
    exact hfirst

theorem ListEnds.cons {i j : Nat} (hnames : ∀ k, i ≤ k → k < s.afterNames i → ¬ s.isAt k .closeBrace)
    (hcomma : s.isAt (s.afterNames i) .comma) (h : s.ListEnds (s.afterNames i + 1) j) : s.ListEnds i j where
  lt := by have := h.lt; have := s.lt_afterNames i; omega
  close := h.close
  inner := by
    intro k hi hk
    rcases Nat.lt_trichotomy k (s.afterNames i) with hlt | rfl | hgt
    · exact hnames k hi hlt
    · exact not_isAt_of_isAt hcomma (by decide)
    · exact h.inner k hgt hk

theorem listEnds_of_names {i : Nat} (hnames : ∀ k, i ≤ k → k < s.afterNames i → ¬ s.isAt k .closeBrace)
    (hclose : s.isAt (s.afterNames i) .closeBrace) : s.ListEnds i (s.afterNames i + 1) where
  lt := by have := s.lt_afterNames i; omega
  close := hclose
  inner := fun k hi hk => hnames k hi (by omega)

theorem not_isAt_of_importedBinding {i k : Nat} {imported : ModuleName} {binding : String}
    (hname : s.moduleName? i = some imported) (hb : s.importedBinding i imported = .ok binding) (hi : i ≤ k)
    (hk : k < s.afterNames i) : ¬ s.isAt k .closeBrace := by
  refine not_isAt_of_lt_afterNames (not_isAt_of_moduleName? hname) (fun hr => ?_) hi hk
  unfold importedBinding at hb
  split at hb
  · rename_i hid
    rw [if_pos hr] at hid
    exact not_isAt_of_isAt (isAt_of_identifier? hid) (by decide)
  · cases hb

theorem listEnds_of_namedImports {i j : Nat} {named : List NamedImport}
    (h : s.namedImports i = .ok (named, j)) : s.ListEnds i j := by
  fun_induction namedImports s i generalizing named j with
  | case1 i hclose =>
    cases h
    exact listEnds_of_close hclose
  | case2 => cases h
  | case3 => cases h
  | case4 i _ imported hname binding hb hcomma ih =>
    obtain ⟨⟨rest, n⟩, hn, he⟩ := map_eq_ok_iff.1 h
    cases he
    exact (ih hn).cons (fun k => not_isAt_of_importedBinding hname hb) hcomma
  | case5 i _ imported hname binding hb _ hclose =>
    cases h
    exact listEnds_of_names (fun k => not_isAt_of_importedBinding hname hb) hclose
  | case6 => cases h

theorem not_isAt_of_exportSpecifier {i k : Nat} {e : ExportSpecifier} (he : s.exportSpecifier i = .ok e)
    (hi : i ≤ k) (hk : k < s.afterNames i) : ¬ s.isAt k .closeBrace := by
  unfold exportSpecifier at he
  split at he
  · cases he
  · rename_i hname
    refine not_isAt_of_lt_afterNames (not_isAt_of_moduleName? hname) (fun hr => ?_) hi hk
    rw [if_pos hr] at he
    split at he
    · exact not_isAt_of_moduleName? ‹_›
    · cases he

theorem listEnds_of_exportSpecifiers {i j : Nat} {specifiers : List ExportSpecifier}
    (h : s.exportSpecifiers i = .ok (specifiers, j)) : s.ListEnds i j := by
  fun_induction exportSpecifiers s i generalizing specifiers j with
  | case1 i hclose =>
    cases h
    exact listEnds_of_close hclose
  | case2 => cases h
  | case3 i _ first hfirst hcomma ih =>
    obtain ⟨⟨rest, n⟩, hn, he⟩ := map_eq_ok_iff.1 h
    cases he
    exact (ih hn).cons (fun k => not_isAt_of_exportSpecifier hfirst) hcomma
  | case4 i _ first hfirst _ hclose =>
    cases h
    exact listEnds_of_names (fun k => not_isAt_of_exportSpecifier hfirst) hclose
  | case5 => cases h

namespace WellFormed

variable {source : List Char} (h : s.WellFormed source)
include h

theorem passes_closer {i j : Nat} (hj : s.closer? i = some j) : s.Passes O (i + 1) (j + 1) := by
  obtain ⟨⟨region, kind, hcloser, hat⟩, hdeep⟩ := h.closes i j hj
  intro k hi hk
  by_cases hkj : k = j
  · subst hkj
    exact passes_of_isAt hat (Region.isModuleKeyword_of_closer? hcloser) k (Nat.le_refl k) hk
  · have ht := Array.getElem?_eq_getElem (Nat.lt_trans (show k < j by omega) (lt_size_of_isAt hat))
    refine ⟨_, ht, ?_⟩
    intro hkey
    rw [Token.isModuleKeyword_of_depth (hdeep k _ (by omega) (by omega) ht)] at hkey
    cases hkey

theorem passes_skip {i : Nat} {kind : Kind} (hi : s.isAt i kind) (hk : kind.isModuleKeyword = false) :
    s.Passes O i (s.skip i) := by
  unfold skip
  split
  · rename_i hj
    exact (passes_of_isAt hi hk).append (h.passes_closer hj)
  · exact passes_of_isAt hi hk

theorem passes_skipAttributes (i : Nat) : s.Passes O i (s.skipAttributes i) := by
  unfold skipAttributes
  dsimp only
  split
  · rename_i hi
    simp only [Bool.and_eq_true, Bool.or_eq_true] at hi
    obtain ⟨hword | hword, hbrace⟩ := hi
    · exact (passes_of_isAt hword rfl).append (h.passes_skip hbrace rfl)
    · exact (passes_of_isAt (isAt_of_isWordAt hword.1) rfl).append (h.passes_skip hbrace rfl)
  · exact .nil i

theorem passes_list {i j : Nat} (hi : s.isAt i .openBrace) (hlist : s.ListEnds (i + 1) j) :
    s.Passes O i j := by
  obtain ⟨n, hn, hclose⟩ := h.brace i hi
  have hin := lt_of_closer? hn
  -- The brace that ends the list is no later than the partner of its first brace.
  have hnj : j ≤ n + 1 := Nat.le_of_not_lt fun hlt => hlist.inner n (by omega) (by omega) hclose
  apply (passes_of_isAt hi rfl).append
  intro k hik hkj
  exact h.passes_closer hn k hik (by omega)

theorem passes_importGroup {i j : Nat} {group : Option String × List NamedImport}
    (hg : s.importGroup i = .ok (group, j)) : s.Passes O i j := by
  unfold importGroup at hg
  split at hg
  · rename_i hstar
    split at hg
    · rename_i has
      split at hg <;> cases hg
      rename_i hname
      exact ((passes_of_isAt hstar rfl).append (passes_of_isAt (isAt_of_isWordAt has) rfl)).append
        (passes_of_isAt (isAt_of_identifier? hname) rfl)
    · cases hg
  · split at hg
    · rename_i hbrace
      obtain ⟨⟨named, n⟩, hn, he⟩ := map_eq_ok_iff.1 hg
      cases he
      exact h.passes_list hbrace (listEnds_of_namedImports hn)
    · cases hg

theorem passes_importBindings {i j : Nat} {clause : ImportClause}
    (hb : s.importBindings i = .ok (clause, j)) : s.Passes O i j := by
  unfold importBindings at hb
  split at hb
  · obtain ⟨⟨group, n⟩, hn, he⟩ := map_eq_ok_iff.1 hb
    cases he
    exact h.passes_importGroup hn
  · rename_i hname
    have hfirst : s.Passes O i (i + 1) := passes_of_isAt (isAt_of_identifier? hname) rfl
    split at hb
    · rename_i hcomma
      obtain ⟨⟨group, n⟩, hn, he⟩ := map_eq_ok_iff.1 hb
      cases he
      exact (hfirst.append (passes_of_isAt hcomma rfl)).append (h.passes_importGroup hn)
    · cases hb
      exact hfirst

theorem passes_importClause {i j : Nat} {clause : ImportClause} (hc : s.importClause i = .ok (clause, j)) :
    s.Passes O i j := by
  unfold importClause at hc
  split at hc
  · cases hc
    exact .nil i
  · split at hc
    · cases hc
    · rename_i hb
      split at hc <;> cases hc
      rename_i hfrom
      exact (h.passes_importBindings hb).append (passes_of_isAt (isAt_of_isWordAt hfrom) rfl)

theorem passes_importStatement {i j : Nat} {st : ImportStatement} (hi : s.importStatement i = .ok (st, j)) :
    s.Passes O (i + 1) j := by
  unfold importStatement at hi
  split at hi
  · cases hi
  · rename_i hc
    split at hi
    · cases hi
    · rename_i hspecifier
      cases hi
      apply (h.passes_importClause hc).append
      apply (passes_of_isAt (isAt_of_specifier? hspecifier) rfl).append
      exact (h.passes_skipAttributes _).append (passes_finish _)

end WellFormed

end Stream

end ModuleLowering
