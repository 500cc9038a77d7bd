import ModuleLowering.Proofs.Statement.Passage

namespace ModuleLowering

open Text

namespace Stream

inductive Initializes (s : Stream) : Nat → Nat → Prop
  | here {i j : Nat} {names : List String} {simple : Bool}
      (ht : s.declaratorTarget? i = some (names, simple, j)) (he : s.isAt j .equals) : Initializes s i (j + 1)
  | later {i j k start : Nat} {names : List String} {simple : Bool} {equalsEnd : Option Nat}
      (ht : s.declaratorTarget? i = some (names, simple, j)) (hi : s.initializer j = .ok (equalsEnd, k))
      (hc : s.isAt k .comma) (h : Initializes s (k + 1) start) : Initializes s i start

def declaratorsStop : Except Nat (List Declarator × Nat) → Nat
  | .ok (_, j) => j
  | .error j => j

theorem declaratorsStop_map (r : Except Nat (List Declarator × Nat)) (d : Declarator) :
    declaratorsStop (r.map fun (rest, n) => (d :: rest, n)) = declaratorsStop r := by
  cases r <;> rfl

variable {s : Stream}

theorem le_declaratorsStop (i : Nat) : i ≤ declaratorsStop (s.declarators i) := by
  cases h : s.declarators i with
  | error j => exact le_of_declarators_error h
  | ok r => exact Nat.le_of_lt (lt_of_declarators h)

theorem declaratorsStop_of_comma {i j k : Nat} {names : List String} {simple : Bool} {equalsEnd : Option Nat}
    (ht : s.declaratorTarget? i = some (names, simple, j)) (hi : s.initializer j = .ok (equalsEnd, k))
    (hc : s.isAt k .comma) :
    declaratorsStop (s.declarators i) = declaratorsStop (s.declarators (k + 1)) := by
  rw [declarators]
  split
  · rename_i ht'
    rw [ht] at ht'
    cases ht'
  · rename_i ht'
    rw [ht] at ht'
    cases ht'
    split
    · rename_i hi'
      rw [hi] at hi'
      cases hi'
    · rename_i hi'
      rw [hi] at hi'
      cases hi'
      dsimp only
      rw [if_pos hc, declaratorsStop_map]

theorem initializer_of_equals {i : Nat} (h : s.isAt i .equals) :
    s.initializer i =
      if s.expressionEnd (i + 1) = i + 1 then .error (s.expressionEnd (i + 1))
      else .ok (some (s.stopBefore (i + 1)), s.expressionEnd (i + 1)) := by
  unfold initializer
  rw [if_pos h]

theorem equalsEnd_of_initializer {i j stop : Nat} (h : s.initializer i = .ok (some stop, j)) :
    i + 1 < j ∧ s.isAt i .equals ∧ stop = s.stopBefore (i + 1) := by
  by_cases hequals : s.isAt i .equals
  · rw [initializer_of_equals hequals] at h
    have := s.le_expressionEnd (i + 1)
    split at h <;> cases h
    exact ⟨by omega, hequals, rfl⟩
  · rw [initializer, if_neg hequals] at h
    cases h

theorem equalsEnd_of_declarators {i j : Nat} {ds : List Declarator} (h : s.declarators i = .ok (ds, j))
    {d : Declarator} (hd : d ∈ ds) {stop : Nat} (hstop : d.equalsEnd = some stop) :
    ∃ k, i < k ∧ k + 1 < j ∧ s.isAt k .equals ∧ stop = s.stopBefore (k + 1) := by
  fun_induction declarators s i generalizing ds j with
  | case1 => cases h
  | case2 => cases h
  | case3 i names simple n ht e k hi =>
    rename_i ih
    obtain ⟨⟨rest, n'⟩, hn, he⟩ := map_eq_ok_iff.1 h
    cases he
    have hlt := lt_of_declaratorTarget? ht
    have hle := le_of_initializer hi
    have hlt' := lt_of_declarators hn
    rcases List.mem_cons.1 hd with rfl | hd
    · obtain rfl := hstop
      obtain ⟨hk, hequals, heq⟩ := equalsEnd_of_initializer hi
      exact ⟨n, by omega, by omega, hequals, heq⟩
    · obtain ⟨m, him, hmj, hrest⟩ := ih hn hd
      exact ⟨m, by omega, hmj, hrest⟩
  | case4 i names simple n ht e k hi =>
    cases h
    have hlt := lt_of_declaratorTarget? ht
    rw [List.mem_singleton.1 hd] at hstop
    obtain rfl := hstop
    obtain ⟨hk, hequals, heq⟩ := equalsEnd_of_initializer hi
    exact ⟨n, by omega, hk, hequals, heq⟩

theorem Initializes.bounds {i start : Nat} (h : s.Initializes i start) :
    i < start ∧ s.expressionEnd start ≤ declaratorsStop (s.declarators i) := by
  induction h with
  | @here i j names simple ht he =>
    have hlt := lt_of_declaratorTarget? ht
    refine ⟨by omega, ?_⟩
    rw [declarators]
    split
    · rename_i ht'
      rw [ht] at ht'
      cases ht'
    · rename_i ht'
      rw [ht] at ht'
      cases ht'
      split
      · rename_i hi
        rw [initializer_of_equals he] at hi
        split at hi
        · cases hi
          exact Nat.le_refl _
        · cases hi
      · rename_i equalsEnd k hi
        rw [initializer_of_equals he] at hi
        split at hi
        · cases hi
        · cases hi
          dsimp only
          split
          · rw [declaratorsStop_map]
            have := le_declaratorsStop (s := s) (s.expressionEnd (j + 1) + 1)
            omega
          · exact Nat.le_refl _
  | later ht hi hc _ ih =>
    have := lt_of_declaratorTarget? ht
    have := le_of_initializer hi
    rw [declaratorsStop_of_comma ht hi hc]
    omega

variable {O : Nat → Prop} {source : List Char}

theorem isAt_of_classBody? {i j : Nat} (h : s.classBody? i = some j) : s.isAt j .openBrace := by
  fun_induction classBody? s i with
  | case1 => cases h
  | case2 i t ht hbody =>
    cases h
    simp only [Bool.and_eq_true, decide_eq_true_eq] at hbody
    exact isAt_iff.2 ⟨t, ht, hbody.1.2⟩
  | case3 _ _ _ _ ih => exact ih h

theorem passes_classBody? {i j : Nat} (h : s.classBody? i = some j) (hO : ∀ k, i ≤ k → k < j → O k) :
    s.Passes O i j := by
  intro k hi hk
  have hsize := lt_size_of_isAt (isAt_of_classBody? h)
  exact ⟨_, Array.getElem?_eq_getElem (by omega), fun _ => hO k hi hk⟩

namespace WellFormed

variable (h : s.WellFormed source)
include h

theorem passes_declaratorTarget? {i j : Nat} {names : List String} {simple : Bool}
    (ht : s.declaratorTarget? i = some (names, simple, j)) : s.Passes O i j := by
  unfold declaratorTarget? at ht
  split at ht
  · cases ht
  · rename_i t hget
    split at ht
    · rename_i hk
      cases ht
      exact passes_of_isAt (isAt_iff.2 ⟨t, hget, hk⟩) rfl
    · rename_i hk
      obtain ⟨n, hn, he⟩ := Option.map_eq_some_iff.1 ht
      cases he
      exact (passes_of_isAt (isAt_iff.2 ⟨t, hget, hk⟩) rfl).append (h.passes_closer hn)
    · rename_i hk
      obtain ⟨n, hn, he⟩ := Option.map_eq_some_iff.1 ht
      cases he
      exact (passes_of_isAt (isAt_iff.2 ⟨t, hget, hk⟩) rfl).append (h.passes_closer hn)
    · cases ht

omit h in
theorem passes_initializer {i : Nat} {r : Except Nat (Option Nat × Nat)} (hr : s.initializer i = r)
    (hO : s.isAt i .equals → ∀ k, i + 1 ≤ k → k < s.expressionEnd (i + 1) → O k) :
    s.Passes O i (match r with
      | .ok (_, k) => k
      | .error k => k) := by
  unfold initializer at hr
  split at hr
  · rename_i he
    have hexpression := (passes_of_isAt he rfl).append (passes_expression (hO he))
    dsimp only at hr
    split at hr <;> subst hr <;> exact hexpression
  · subst hr
    exact .nil i

theorem passes_declarators (i : Nat)
    (hO : ∀ start, s.Initializes i start → ∀ k, start ≤ k → k < s.expressionEnd start → O k) :
    s.Passes O i (declaratorsStop (s.declarators i)) := by
  fun_induction declarators s i with
  | case1 i => exact .nil i
  | case2 i names simple j ht k hi =>
    exact (h.passes_declaratorTarget? ht).append (passes_initializer hi fun he => hO _ (.here ht he))
  | case3 i names simple j ht equalsEnd k hi first hc ih =>
    rw [declaratorsStop_map]
    apply (h.passes_declaratorTarget? ht).append
    apply Passes.append (passes_initializer hi fun he => hO _ (.here ht he))
    exact (passes_of_isAt hc rfl).append (ih fun start hstart => hO start (.later ht hi hc hstart))
  | case4 i names simple j ht equalsEnd k hi =>
    exact (h.passes_declaratorTarget? ht).append (passes_initializer hi fun he => hO _ (.here ht he))

theorem passes_functionDeclaration {i : Nat} {d : Declaration} (hd : s.functionDeclaration i = .ok d) :
    s.Passes O i d.next := by
  have hname : s.Passes O i (s.functionName i) := by
    unfold functionName
    refine Passes.append (j := if s.isWordAt i "async" then i + 1 else i) ?_ ?_
    · split
      · exact passes_of_isAt (isAt_of_isWordAt ‹_›) rfl
      · exact .nil i
    · exact (passes_optional _ _ rfl).append (passes_optional _ _ rfl)
  unfold functionDeclaration at hd
  dsimp only at hd
  split at hd
  · cases hd
  · rename_i hparen
    split at hd
    · cases hd
    · rename_i hbrace
      split at hd
      · cases hd
      · rename_i j hj
        cases hd
        refine hname.append ((passes_optional _ .identifier rfl).append ?_)
        apply (h.passes_skip (by simpa using hparen) rfl).append
        exact (passes_of_isAt (by simpa using hbrace) rfl).append (h.passes_closer hj)

theorem passes_classDeclaration {i : Nat} {d : Declaration} (hi : s.isAt i (.keyword .«class»))
    (hd : s.classDeclaration i = .ok d)
    (hO : ∀ body, s.classBody? (s.optional (i + 1) .identifier) = some body →
      ∀ k, i < k → k < body → O k) : s.Passes O i d.next := by
  unfold classDeclaration at hd
  split at hd
  · cases hd
  · rename_i body hbody
    split at hd
    · cases hd
    · rename_i j hj
      cases hd
      refine (passes_of_isAt hi rfl).append ((passes_optional _ .identifier rfl).append ?_)
      have hle := s.le_optional (i + 1) .identifier
      apply (passes_classBody? hbody fun k hk => hO body hbody k (by omega)).append
      exact (passes_of_isAt (isAt_of_classBody? hbody) rfl).append (h.passes_closer hj)

end WellFormed

theorem bodyEnd_of_functionDeclaration {i : Nat} {d : Declaration} (hd : s.functionDeclaration i = .ok d) :
    d.bodyEnd = s.stopBefore d.next := by
  unfold functionDeclaration at hd
  dsimp only at hd
  split at hd
  · cases hd
  · split at hd
    · cases hd
    · split at hd <;> cases hd
      rfl

theorem bodyEnd_of_classDeclaration {i : Nat} {d : Declaration} (hd : s.classDeclaration i = .ok d) :
    d.bodyEnd = s.stopBefore d.next := by
  unfold classDeclaration at hd
  split at hd
  · cases hd
  · split at hd <;> cases hd
    rfl

theorem bounds_of_classDeclaration {i body : Nat} {d : Declaration} (hd : s.classDeclaration i = .ok d)
    (hbody : s.classBody? (s.optional (i + 1) .identifier) = some body) : body < d.next := by
  unfold classDeclaration at hd
  rw [hbody] at hd
  dsimp only at hd
  split at hd
  · cases hd
  · rename_i hj
    cases hd
    exact Nat.lt_succ_of_lt (lt_of_closer? hj)

inductive ReadsDeclaration (s : Stream) (i : Nat) : DeclarationForm → Declaration → Prop
  | function {d : Declaration} (hi : s.beginsFunction i) (hd : s.functionDeclaration i = .ok d) :
      ReadsDeclaration s i .function d
  | classBody {d : Declaration} (hi : s.isAt i (.keyword .«class»)) (hd : s.classDeclaration i = .ok d) :
      ReadsDeclaration s i .classBody d

theorem ReadsDeclaration.bodyEnd_eq {i : Nat} {form : DeclarationForm} {d : Declaration}
    (h : s.ReadsDeclaration i form d) : d.bodyEnd = s.stopBefore d.next := by
  cases h with
  | function _ hd => exact bodyEnd_of_functionDeclaration hd
  | classBody _ hd => exact bodyEnd_of_classDeclaration hd

theorem ReadsDeclaration.lt_next {i : Nat} {form : DeclarationForm} {d : Declaration}
    (h : s.ReadsDeclaration i form d) : i < d.next := by
  cases h with
  | function _ hd => exact lt_of_functionDeclaration hd
  | classBody _ hd => exact lt_of_classDeclaration hd

def exportKeyword (s : Stream) (i : Nat) : Span := ⟨s.offsetAt i, s.stopBefore (i + 1)⟩

def defaultKeywords (s : Stream) (i : Nat) : Span := ⟨s.offsetAt i, s.stopBefore (i + 2)⟩

inductive ExportForm (s : Stream) (i : Nat) : ExportStatement → Nat → Prop
  | defaultExpression (hdefault : s.isAt (i + 1) (.keyword .default)) (hf : ¬ s.beginsFunction (i + 2))
      (hc : ¬ s.isAt (i + 2) (.keyword .«class»)) (hne : s.expressionEnd (i + 2) ≠ i + 2) :
      ExportForm s i (.defaultExpression (s.defaultKeywords i)) (s.finish (s.expressionEnd (i + 2)))
  | defaultNamed {form : DeclarationForm} {d : Declaration} {name : String}
      (hdefault : s.isAt (i + 1) (.keyword .default)) (hd : s.ReadsDeclaration (i + 2) form d)
      (hname : d.name = some name) :
      ExportForm s i (.defaultNamed (s.defaultKeywords i) name d.bodyEnd) d.next
  | defaultAnonymous {form : DeclarationForm} {d : Declaration}
      (hdefault : s.isAt (i + 1) (.keyword .default)) (hd : s.ReadsDeclaration (i + 2) form d)
      (hname : d.name = none) : ExportForm s i (.defaultAnonymous (s.defaultKeywords i) d.bodyEnd) d.next
  | variableList {kind : Kind} {declarators : List Declarator} {j : Nat} (hi : s.isAt (i + 1) kind)
      (hkind : kind.declaresVariables) (hd : s.declarators (i + 2) = .ok (declarators, j)) :
      ExportForm s i (.variableList (s.exportKeyword i) declarators (s.stopBefore (s.finish j))) (s.finish j)
  | declaration {form : DeclarationForm} {d : Declaration} {name : String}
      (hd : s.ReadsDeclaration (i + 1) form d) (hname : d.name = some name) :
      ExportForm s i (.declaration form (s.exportKeyword i) name d.bodyEnd) d.next
  | names {specifiers : List ExportSpecifier} {j : Nat} (hi : s.isAt (i + 1) .openBrace)
      (hl : s.exportSpecifiers (i + 2) = .ok (specifiers, j)) :
      ExportForm s i (.names ⟨s.offsetAt i, s.stopBefore (s.finish j)⟩ specifiers) (s.finish j)
  | namesFrom {specifiers : List ExportSpecifier} {j next : Nat} {specifier : Specifier}
      (hi : s.isAt (i + 1) .openBrace) (hl : s.exportSpecifiers (i + 2) = .ok (specifiers, j))
      (hfrom : s.isWordAt j "from") (hspecifier : s.specifier? (j + 1) = some specifier)
      (hnext : next = s.finish (s.skipAttributes (j + 2))) :
      ExportForm s i (.namesFrom ⟨s.offsetAt i, s.stopBefore next⟩ specifiers specifier) next

theorem exportForm_of_list {i j : Nat} {st : ExportStatement} (hi : s.isAt (i + 1) .openBrace)
    (h : s.exportList i = .ok (st, j)) : s.ExportForm i st j := by
  unfold exportList at h
  split at h
  · cases h
  · rename_i hl
    split at h
    · rename_i hfrom
      split at h
      · cases h
      · rename_i hspecifier
        cases h
        exact .namesFrom hi hl hfrom hspecifier rfl
    · split at h <;> cases h
      exact .names hi hl

theorem exportForm_of_default {i j : Nat} {st : ExportStatement} (hi : s.isAt (i + 1) (.keyword .default))
    (h : s.exportDefault i = .ok (st, j)) : s.ExportForm i st j := by
  unfold exportDefault at h
  dsimp only at h
  split at h
  · obtain ⟨d, hd, he⟩ := map_eq_ok_iff.1 h
    have hreads := ReadsDeclaration.function ‹_› hd
    split at he <;> cases he
    · exact .defaultNamed hi hreads ‹_›
    · exact .defaultAnonymous hi hreads ‹_›
  · split at h
    · obtain ⟨d, hd, he⟩ := map_eq_ok_iff.1 h
      have hreads := ReadsDeclaration.classBody ‹_› hd
      split at he <;> cases he
      · exact .defaultNamed hi hreads ‹_›
      · exact .defaultAnonymous hi hreads ‹_›
    · split at h <;> cases h
      exact .defaultExpression hi ‹_› ‹_› ‹_›

theorem exportForm_of_declaration {i j : Nat} {form : DeclarationForm} {unnamed : ExportFault}
    {st : ExportStatement} {d : Declaration} (hd : s.ReadsDeclaration (i + 1) form d)
    (h : exportDeclaration form unnamed (s.exportKeyword i) d = .ok (st, j)) : s.ExportForm i st j := by
  unfold exportDeclaration at h
  split at h <;> cases h
  exact .declaration hd ‹_›

theorem exportForm_of_exportStatement {i j : Nat} {st : ExportStatement}
    (h : s.exportStatement i = .ok (st, j)) : s.ExportForm i st j := by
  unfold exportStatement at h
  dsimp only at h
  split at h
  · cases h
  · rename_i next hnext
    have hat : s.isAt (i + 1) next.kind := isAt_iff.2 ⟨next, hnext, rfl⟩
    split at h
    · rename_i hkind
      exact exportForm_of_default (hkind ▸ hat) h
    · split at h
      · rename_i hkind
        unfold exportVariables at h
        split at h <;> cases h
        exact .variableList hat hkind ‹_›
      · split at h
        · obtain ⟨d, hd, he⟩ := bind_eq_ok_iff.1 h
          exact exportForm_of_declaration (.function ‹_› hd) he
        · split at h
          · rename_i hkind
            obtain ⟨d, hd, he⟩ := bind_eq_ok_iff.1 h
            exact exportForm_of_declaration (.classBody (hkind ▸ hat) hd) he
          · split at h
            · rename_i hkind
              exact exportForm_of_list (hkind ▸ hat) h
            · split at h <;> cases h

end Stream

end ModuleLowering
