import ModuleLowering.Proofs.SourceModule.Walk

/-!
What the walk overlooks. It jumps over the initializers of declarators, the expression of a default export and
the head of an exported class, and it looks at everything else. So a statement is read exactly once unless
an expression before it has not ended, or it stands in the head of a class.
-/

namespace ModuleLowering

open Text

namespace Stream

inductive BeginsExpression (s : Stream) (i : Nat) : Nat → Prop
  | initializer {kind : Kind} {start : Nat} (hi : s.isAt i kind) (hkind : kind.declaresVariables)
      (h : s.Initializes (i + 1) start) : BeginsExpression s i start
  | exportedInitializer {kind : Kind} {start : Nat} (hi : s.isAt i (.keyword .«export»))
      (hi' : s.isAt (i + 1) kind) (hkind : kind.declaresVariables) (h : s.Initializes (i + 2) start) :
      BeginsExpression s i start
  | default (hi : s.isAt i (.keyword .«export»)) (hdefault : s.isAt (i + 1) (.keyword .default))
      (hf : ¬ s.beginsFunction (i + 2)) (hc : ¬ s.isAt (i + 2) (.keyword .«class»)) :
      BeginsExpression s i (i + 2)

inductive InClassHead (s : Stream) (i k : Nat) : Prop
  | plain {body : Nat} (hi : s.isAt i (.keyword .«export»)) (hc : s.isAt (i + 1) (.keyword .«class»))
      (hbody : s.classBody? (s.optional (i + 2) .identifier) = some body) (hk : i + 1 < k) (hk' : k < body)
  | default {body : Nat} (hi : s.isAt i (.keyword .«export»)) (hdefault : s.isAt (i + 1) (.keyword .default))
      (hc : s.isAt (i + 2) (.keyword .«class»))
      (hbody : s.classBody? (s.optional (i + 3) .identifier) = some body) (hk : i + 2 < k) (hk' : k < body)

def Overlooks (s : Stream) (i k : Nat) : Prop :=
  (∃ start, s.BeginsExpression i start ∧ start ≤ k ∧ k < s.expressionEnd start) ∨ s.InClassHead i k

/-- The walk comes to a statement that is read over the index `k`. -/
def Overlooked (s : Stream) (k : Nat) : Prop :=
  ∃ i m t, s.Comes i m ∧ s.tokens[i]? = some t ∧ t.isTopLevel ∧ s.Overlooks i k

variable {s : Stream} {source : List Char}

theorem declaredAt_of_variables {i : Nat} {kind : Kind} (h : kind.declaresVariables = true) :
    (s.declaredAt i kind).2 = declaratorsStop (s.declarators (i + 1)) := by
  have hne : ¬ (kind = .keyword .function || kind = .keyword .«class») := by
    simp only [Bool.or_eq_true, decide_eq_true_eq]
    rintro (rfl | rfl) <;> cases h
  unfold declaredAt
  rw [if_neg hne, if_pos h]
  split
  · rename_i hd
    rw [hd]
    rfl
  · rename_i hd
    rw [hd]
    rfl

theorem WellFormed.passes_declaredAt (h : s.WellFormed source) {i : Nat} {kind : Kind}
    (hi : s.isAt i kind) : s.Passes (s.Overlooks i) (i + 1) (s.declaredAt i kind).2 := by
  by_cases hkind : kind.declaresVariables = true
  · rw [declaredAt_of_variables hkind]
    exact h.passes_declarators _ fun start hstart k hk hk' =>
      .inl ⟨start, .initializer hi hkind hstart, hk, hk'⟩
  · unfold declaredAt
    split
    · exact (passes_optional _ .asterisk rfl).append (passes_optional _ .identifier rfl)
    · exact .nil _

theorem ReadsDeclaration.passes {i n : Nat} {form : DeclarationForm} {d : Declaration}
    (h : s.WellFormed source) (hd : s.ReadsDeclaration n form d)
    (hO : ∀ body k, s.isAt n (.keyword .«class») → s.classBody? (s.optional (n + 1) .identifier) = some body →
      n < k → k < body → s.InClassHead i k) : s.Passes (s.Overlooks i) n d.next := by
  cases hd with
  | function _ hd => exact h.passes_functionDeclaration hd
  | classBody hi hd =>
    exact h.passes_classDeclaration hi hd fun body hbody k hk hk' => .inr (hO body k hi hbody hk hk')

theorem ExportForm.passes {i j : Nat} {st : ExportStatement} (h : s.WellFormed source)
    (hi : s.isAt i (.keyword .«export»)) (hst : s.ExportForm i st j) :
    s.Passes (s.Overlooks i) (i + 1) j := by
  cases hst with
  | defaultExpression hdefault hf hc hne =>
    refine (passes_of_isAt hdefault rfl).append (Passes.append ?_ (passes_finish _))
    exact passes_expression fun k hk hk' => .inl ⟨i + 2, .default hi hdefault hf hc, hk, hk'⟩
  | defaultNamed hdefault hd _ | defaultAnonymous hdefault hd _ =>
    exact (passes_of_isAt hdefault rfl).append
      (hd.passes h fun body k hc hbody hk hk' => .default hi hdefault hc hbody hk hk')
  | variableList hi' hkind hd =>
    apply (passes_of_isAt hi' (Kind.isModuleKeyword_of_declaresVariables hkind)).append
    have hlist := h.passes_declarators (O := s.Overlooks i) (i + 2) fun start hstart k hk hk' =>
      .inl ⟨start, .exportedInitializer hi hi' hkind hstart, hk, hk'⟩
    rw [hd] at hlist
    exact hlist.append (passes_finish _)
  | declaration hd _ => exact hd.passes h fun body k hc hbody hk hk' => .plain hi hc hbody hk hk'
  | names hi' hl => exact (h.passes_list hi' (listEnds_of_exportSpecifiers hl)).append (passes_finish _)
  | namesFrom hi' hl hfrom hspecifier hnext =>
    subst hnext
    apply (h.passes_list hi' (listEnds_of_exportSpecifiers hl)).append
    apply (passes_of_isAt (isAt_of_isWordAt hfrom) rfl).append
    apply (passes_of_isAt (isAt_of_specifier? hspecifier) rfl).append
    exact (h.passes_skipAttributes _).append (passes_finish _)

theorem VisitForm.passes {i j : Nat} {t : Token} {m n : SourceModule} (h : s.WellFormed source)
    (ht : s.tokens[i]? = some t) (hv : s.VisitForm i t m n j) :
    s.Passes (fun k => t.isTopLevel ∧ s.Overlooks i k) (i + 1) j := by
  have hat : s.isAt i t.kind := isAt_iff.2 ⟨t, ht, rfl⟩
  cases hv with
  | inner => exact .nil _
  | imports _ _ _ hi _ => exact h.passes_importStatement hi
  | exports htop hk hi => exact (hi.passes h (hk ▸ hat)).mono fun k hk => ⟨htop, hk⟩
  | declares htop _ _ => exact (h.passes_declaredAt hat).mono fun k hk => ⟨htop, hk⟩

theorem isAt_of_beginsFunction {i : Nat} (h : s.beginsFunction i) :
    s.isAt i (.keyword .function) ∨ s.isAt i .identifier := by
  simp only [beginsFunction, Bool.or_eq_true, Bool.and_eq_true] at h
  exact h.imp_right fun hasync => isAt_of_isWordAt hasync.1

theorem ReadsDeclaration.not_isAt {i : Nat} {form : DeclarationForm} {d : Declaration} {kind : Kind}
    (h : s.ReadsDeclaration i form d) (hk : kind = .keyword .default ∨ kind.declaresVariables) :
    ¬ s.isAt i kind := by
  intro hi
  cases h with
  | function hf _ =>
    rcases isAt_of_beginsFunction hf with hf | hf <;> obtain rfl := kind_eq_of_isAt hi hf <;>
      rcases hk with hk | hk <;> cases hk
  | classBody hc _ => obtain rfl := kind_eq_of_isAt hi hc; rcases hk with hk | hk <;> cases hk

theorem ExportForm.stop_of_variables {i j : Nat} {st : ExportStatement} {kind : Kind}
    (h : s.ExportForm i st j) (hi : s.isAt (i + 1) kind) (hkind : kind.declaresVariables) :
    declaratorsStop (s.declarators (i + 2)) ≤ j := by
  cases h with
  | defaultExpression hdefault | defaultNamed hdefault | defaultAnonymous hdefault =>
    obtain rfl := kind_eq_of_isAt hi hdefault
    cases hkind
  | variableList _ _ hd =>
    rw [hd]
    exact s.le_finish _
  | declaration hd => exact absurd hi (hd.not_isAt (.inr hkind))
  | names hi' | namesFrom hi' =>
    obtain rfl := kind_eq_of_isAt hi hi'
    cases hkind

theorem ExportForm.stop_of_default {i j : Nat} {st : ExportStatement} (h : s.ExportForm i st j)
    (hi : s.isAt (i + 1) (.keyword .default)) (hf : ¬ s.beginsFunction (i + 2))
    (hc : ¬ s.isAt (i + 2) (.keyword .«class»)) : s.expressionEnd (i + 2) ≤ j := by
  cases h with
  | defaultExpression => exact s.le_finish _
  | defaultNamed _ hd | defaultAnonymous _ hd =>
    cases hd with
    | function hf' => exact absurd hf' hf
    | classBody hc' => exact absurd hc' hc
  | variableList hi' hkind => obtain rfl := kind_eq_of_isAt hi hi'; cases hkind
  | declaration hd => exact absurd hi (hd.not_isAt (.inl rfl))
  | names hi' | namesFrom hi' => cases kind_eq_of_isAt hi hi'

theorem ReadsDeclaration.stop_of_class {i body : Nat} {form : DeclarationForm} {d : Declaration}
    (h : s.ReadsDeclaration i form d) (hc : s.isAt i (.keyword .«class»))
    (hbody : s.classBody? (s.optional (i + 1) .identifier) = some body) : body < d.next := by
  cases h with
  | function hf =>
    rcases isAt_of_beginsFunction hf with hf | hf <;> cases kind_eq_of_isAt hc hf
  | classBody _ hd => exact bounds_of_classDeclaration hd hbody

theorem ExportForm.stop_of_classHead {i j k : Nat} {st : ExportStatement} (h : s.ExportForm i st j)
    (hk : s.InClassHead i k) : i < k ∧ k < j := by
  cases hk with
  | plain hi hc hbody hk hk' =>
    refine ⟨by omega, ?_⟩
    cases h with
    | defaultExpression hdefault | defaultNamed hdefault | defaultAnonymous hdefault =>
      cases kind_eq_of_isAt hc hdefault
    | variableList hi' hkind => obtain rfl := kind_eq_of_isAt hc hi'; cases hkind
    | declaration hd =>
      have := hd.stop_of_class hc hbody
      omega
    | names hi' | namesFrom hi' => cases kind_eq_of_isAt hc hi'
  | default hi hdefault hc hbody hk hk' =>
    refine ⟨by omega, ?_⟩
    cases h with
    | defaultExpression _ _ hc' => exact absurd hc hc'
    | defaultNamed _ hd | defaultAnonymous _ hd =>
      have := hd.stop_of_class hc hbody
      omega
    | variableList hi' hkind => obtain rfl := kind_eq_of_isAt hdefault hi'; cases hkind
    | declaration hd => exact absurd hdefault (hd.not_isAt (.inl rfl))
    | names hi' | namesFrom hi' => cases kind_eq_of_isAt hdefault hi'

theorem VisitForm.bounds_of_overlooks {i j k : Nat} {t : Token} {m n : SourceModule}
    (ht : s.tokens[i]? = some t) (hv : s.VisitForm i t m n j) (htop : t.isTopLevel)
    (hk : s.Overlooks i k) : i < k ∧ k < j := by
  have hat : s.isAt i t.kind := isAt_iff.2 ⟨t, ht, rfl⟩
  -- Only an export is followed by its declarators, its expression or its class.
  have hexport : s.isAt i (.keyword .«export») → ∃ st, s.ExportForm i st j := by
    intro hi
    have hkind := kind_eq_of_isAt hat hi
    cases hv with
    | inner h => rw [h] at htop; cases htop
    | imports _ hk' => rw [hk'] at hkind; cases hkind
    | exports _ _ hi => exact ⟨_, hi⟩
    | declares _ hk' => exact absurd hkind hk'
  rcases hk with ⟨start, hstart, hk, hk'⟩ | hhead
  · cases hstart with
    | initializer hi hkind h =>
      obtain rfl := kind_eq_of_isAt hat hi
      have hbounds := h.bounds
      cases hv with
      | inner h => rw [h] at htop; cases htop
      | imports _ hk' | exports _ hk' => rw [hk'] at hkind; cases hkind
      | declares =>
        rw [declaredAt_of_variables hkind]
        omega
    | exportedInitializer hi hi' hkind h =>
      obtain ⟨st, hst⟩ := hexport hi
      have := hst.stop_of_variables hi' hkind
      have := h.bounds
      omega
    | default hi hdefault hf hc =>
      obtain ⟨st, hst⟩ := hexport hi
      have := hst.stop_of_default hdefault hf hc
      omega
  · cases id hhead with
    | plain hi | default hi =>
      obtain ⟨st, hst⟩ := hexport hi
      exact hst.stop_of_classHead hhead

theorem not_comes_of_overlooked {k : Nat} {m : SourceModule} (h : s.Overlooked k) : ¬ s.Comes k m := by
  intro hk
  obtain ⟨i, n, t, hi, ht, htop, hover⟩ := h
  have hlt : i < k := by
    rcases hover with ⟨start, hstart, hle, _⟩ | hhead
    · cases hstart with
      | initializer _ _ h | exportedInitializer _ _ _ h => have := h.bounds; omega
      | default => omega
    · cases hhead <;> omega
  obtain ⟨⟨j, p⟩, hq, hle⟩ := hi.visits_of_lt hk hlt
  obtain ⟨u, hu, hv⟩ := hq
  rw [show s.tokens[i]? = some u from hu] at ht
  cases ht
  have := (visitForm_of_visit hv).bounds_of_overlooks hu htop hover
  dsimp only at hle
  omega

theorem comes_or_overlooked {stop k : Nat} {m : SourceModule} {t : Token} (h : s.WellFormed source)
    (hstop : s.Comes stop m) (hk : k < stop) (ht : s.tokens[k]? = some t) (hkey : t.isModuleKeyword) :
    (∃ n, s.Comes k n) ∨ s.Overlooked k := by
  unfold Comes at hstop
  generalize hp : (stop, m) = p at hstop
  induction hstop generalizing stop m with
  | refl => cases hp; omega
  | @tail q r hwalk hstep ih =>
    subst hp
    obtain ⟨i, n⟩ := q
    rcases Nat.lt_trichotomy k i with hlt | rfl | hgt
    · exact ih hlt rfl
    · exact .inl ⟨n, hwalk⟩
    · obtain ⟨u, hu, hv⟩ := hstep
      obtain ⟨t', ht', hover⟩ := (visitForm_of_visit hv).passes h hu k hgt hk
      rw [ht] at ht'
      cases ht'
      exact .inr ⟨i, n, u, hwalk, hu, hover hkey⟩

theorem Initializes.equals_before {i start : Nat} (h : s.Initializes i start) :
    ∃ j, start = j + 1 ∧ s.isAt j .equals := by
  induction h with
  | here _ he => exact ⟨_, rfl, he⟩
  | later _ _ _ _ ih => exact ih

theorem BeginsExpression.before {i start : Nat} (h : s.BeginsExpression i start) :
    ∃ j p, start = j + 1 ∧ s.tokens[j]? = some p ∧ p.kind ≠ .semicolon ∧ p.endsExpression = false := by
  have hkind {j : Nat} {kind : Kind} (hj : s.isAt j kind) (hk : kind = .equals ∨ kind = .keyword .default) :
      ∃ p, s.tokens[j]? = some p ∧ p.kind ≠ .semicolon ∧ p.endsExpression = false := by
    obtain ⟨p, hp, rfl⟩ := isAt_iff.1 hj
    refine ⟨p, hp, ?_⟩
    unfold Token.endsExpression
    rcases hk with hk | hk <;> rw [hk] <;> exact ⟨by decide, rfl⟩
  cases h with
  | initializer _ _ h | exportedInitializer _ _ _ h =>
    obtain ⟨j, rfl, he⟩ := h.equals_before
    obtain ⟨p, hp⟩ := hkind he (.inl rfl)
    exact ⟨j, p, rfl, hp⟩
  | default _ hdefault =>
    obtain ⟨p, hp⟩ := hkind hdefault (.inr rfl)
    exact ⟨i + 1, p, rfl, hp⟩

theorem WellFormed.not_semicolon {start j : Nat} {p t : Token} (h : s.WellFormed source)
    (hp : s.tokens[j]? = some p) (ht : s.tokens[j + 1]? = some t) (hkey : t.isModuleKeyword)
    (hgoes : s.endsExpressionAt start j p = false) : p.kind ≠ .semicolon := by
  intro hsemicolon
  simp only [Token.isModuleKeyword, Kind.isModuleKeyword, Bool.and_eq_true, Bool.or_eq_true,
    decide_eq_true_eq] at hkey
  have htop := h.steady j p t hp ht (by rw [hsemicolon]; rfl) (by rcases hkey.2 with hk | hk <;> rw [hk] <;> rfl)
  rw [hkey.1] at htop
  simp [endsExpressionAt, htop, hsemicolon] at hgoes

theorem not_endsExpression {start j : Nat} {p t : Token} (hp : s.tokens[j]? = some p) (hj : start ≤ j)
    (hkey : t.isModuleKeyword) (hbreak : t.lineBreak) (hgoes : s.endsExpressionAt start (j + 1) t = false) :
    p.endsExpression = false := by
  simp only [Token.isModuleKeyword, Kind.isModuleKeyword, Bool.and_eq_true, Bool.or_eq_true,
    decide_eq_true_eq] at hkey
  have hends : t.continuesExpression = false := by
    unfold Token.continuesExpression
    rcases hkey.2 with hk | hk <;> rw [hk]
  cases hends' : p.endsExpression with
  | false => rfl
  | true =>
    have hlt : start < j + 1 := by omega
    simp [endsExpressionAt, hkey.1, hbreak, hends, hp, hends', hlt] at hgoes

theorem before_of_expression {i start k : Nat} {t : Token} (h : s.WellFormed source)
    (hstart : s.BeginsExpression i start) (hk : start ≤ k) (hk' : k < s.expressionEnd start)
    (ht : s.tokens[k]? = some t) (hkey : t.isModuleKeyword)
    (hbegins : k = 0 ∨ s.isAt (k - 1) .semicolon ∨ t.lineBreak) :
    t.lineBreak ∧ ∃ p, s.before? k = some p ∧ p.kind ≠ .semicolon ∧ p.endsExpression = false := by
  obtain ⟨j, p, rfl, hp, hne, hends⟩ := hstart.before
  obtain ⟨n, rfl⟩ := Nat.exists_eq_add_of_le' (Nat.lt_of_lt_of_le (Nat.succ_pos j) hk)
  rw [before?_succ]
  -- A line break it is, once the token before is known to be no semicolon.
  have hbreak {q : Token} (hq : s.tokens[n]? = some q) (hne : q.kind ≠ .semicolon) : t.lineBreak = true := by
    rcases hbegins with h0 | hsemicolon | hbreak
    · omega
    · obtain ⟨q', hq', hkind⟩ := isAt_iff.1 hsemicolon
      rw [Nat.add_sub_cancel, hq] at hq'
      cases hq'
      exact absurd hkind hne
    · exact hbreak
  rcases Nat.eq_or_lt_of_le hk with heq | hlt
  · obtain rfl : j = n := by omega
    exact ⟨hbreak hp hne, p, hp, hne, hends⟩
  · unfold expressionEnd at hk'
    have hn : n < s.expressionEndFrom (j + 1) (j + 1) := by omega
    obtain ⟨q, hq, hgoes⟩ := exists_of_lt_expressionEndFrom (show j + 1 ≤ n by omega) hn
    obtain ⟨t', ht', hgoes'⟩ := exists_of_lt_expressionEndFrom hk hk'
    rw [ht] at ht'
    cases ht'
    have hne := h.not_semicolon hq ht hkey hgoes
    have hbreak := hbreak hq hne
    exact ⟨hbreak, q, hq, hne, not_endsExpression hq (by omega) hkey hbreak hgoes'⟩

end Stream

end ModuleLowering
