import ModuleLowering.Proofs.Lowering.Edits
import ModuleLowering.Proofs.Role.Groups

/-!
Guards: a reference that begins a line becomes a parenthesis, which could call what the line before ends in.
Exactly after what the scanner takes for the end of an expression it gets a semicolon first.
-/

namespace ModuleLowering

open Text

namespace Stream

def ClosesHead (s : Stream) (j : Nat) : Prop :=
  ∃ i p, s.closer? (i + 1) = some j ∧ s.tokens[i]? = some p ∧
    p.kind ∈ [.keyword .«if», .keyword .«while», .keyword .«for», .keyword .«with»]

inductive EndsOperand (s : Stream) (j : Nat) (t : Token) : Prop
  | name (h : t.kind = .identifier ∨ t.kind = .privateIdentifier)
  | literal (h : t.kind.isLiteral)
  | template (h : t.kind = .templateTail)
  | word (h : t.kind.isValueKeyword)
  | bracket (h : t.kind = .closeBracket)
  | paren (h : t.kind = .closeParen) (hhead : ¬ s.ClosesHead j)
  | brace (h : t.kind = .closeBrace) (hblock : t.group ≠ some .block) (hclass : t.group ≠ some .classBody)
  | update (h : t.kind = .plusPlus ∨ t.kind = .minusMinus)
  | tag (h : t.kind = .greater ∨ t.kind = .slashGreater) (hcontext : t.context = .jsxTag)

def ClosesAwaitHead (s : Stream) (j : Nat) : Prop :=
  ∃ i, s.closer? (i + 2) = some j ∧ s.isAt i (.keyword .«for») ∧ s.isAt (i + 1) (.keyword .await)

theorem closesHead_iff {source : List Char} {s : Stream} (hs : scan source = .ok s) {j : Nat} {t : Token}
    (ht : s.tokens[j]? = some t) : s.closesHead t ↔ t.kind = .closeParen ∧ s.ClosesHead j := by
  unfold closesHead
  rw [Bool.and_eq_true, decide_eq_true_eq]
  refine and_congr_right fun hk => ?_
  have hpair (i : Nat) : s.closer? i = some j ↔ t.pair = some i := closer?_iff_pair hs ht (by rw [hk]; rfl)
  simp only [Option.any_eq_true, decide_eq_true_eq]
  constructor
  · rintro ⟨i, hi, p, hp, hword⟩
    cases i with
    | zero => cases hp
    | succ i => exact ⟨i, p, (hpair _).2 hi, by rwa [before?_succ] at hp, hword⟩
  · rintro ⟨i, p, hi, hp, hword⟩
    exact ⟨i + 1, (hpair _).1 hi, p, by rwa [before?_succ], hword⟩

theorem endsOperand_iff {source : List Char} {s : Stream} (hs : scan source = .ok s) {j : Nat} {t : Token}
    (ht : s.tokens[j]? = some t) : (t.endsExpression && !s.closesHead t) ↔ s.EndsOperand j t := by
  have hhead := closesHead_iff hs ht
  rw [Bool.and_eq_true, Bool.not_eq_true', ← Bool.not_eq_true, hhead]
  constructor
  · rintro ⟨hends, hnot⟩
    unfold Token.endsExpression at hends
    split at hends
    · exact .name (.inl ‹_›)
    · exact .name (.inr ‹_›)
    · exact .literal (by simp [*, Kind.isLiteral])
    · exact .literal (by simp [*, Kind.isLiteral])
    · exact .literal (by simp [*, Kind.isLiteral])
    · exact .literal (by simp [*, Kind.isLiteral])
    · exact .template ‹_›
    · exact .paren ‹_› fun h => hnot ⟨‹_›, h⟩
    · exact .bracket ‹_›
    · exact .update (.inl ‹_›)
    · exact .update (.inr ‹_›)
    · simp only [ne_eq, Bool.and_eq_true, decide_eq_true_eq] at hends
      exact .brace ‹_› hends.1 hends.2
    · exact .tag (.inl ‹_›) (by simpa using hends)
    · exact .tag (.inr ‹_›) (by simpa using hends)
    · exact .word hends
  · unfold Token.endsExpression
    intro h
    cases h with
    | name h => rcases h with h | h <;> simp [h]
    | literal h => cases hk : t.kind <;> simp_all [Kind.isLiteral]
    | template h | bracket h => simp [h]
    | word h => cases hk : t.kind <;> simp_all [Kind.isValueKeyword]
    | paren h hhead => simp [h, hhead]
    | brace h hblock hclass => simp [h, hblock, hclass]
    | update h => rcases h with h | h <;> simp [h]
    | tag h hcontext => rcases h with h | h <;> simp [h, hcontext]

theorem endsOperand_paren_iff {s : Stream} {j : Nat} {t : Token} (h : t.kind = .closeParen) :
    s.EndsOperand j t ↔ ¬ s.ClosesHead j := by
  refine ⟨fun hends => ?_, .paren h⟩
  cases hends with
  | paren _ hhead => exact hhead
  | name hk | update hk | tag hk => rcases hk with hk | hk <;> rw [h] at hk <;> cases hk
  | literal hk | word hk => rw [h] at hk; cases hk
  | template hk | bracket hk | brace hk => rw [h] at hk; cases hk

theorem not_closesHead_of_await {source : List Char} {s : Stream} (hs : scan source = .ok s) {j : Nat}
    {t : Token} (ht : s.tokens[j]? = some t) (hparen : t.kind = .closeParen) (h : s.ClosesAwaitHead j) :
    ¬ s.ClosesHead j := by
  rintro ⟨k, p, hk, hp, hword⟩
  obtain ⟨i, hi, _, hawait⟩ := h
  have hpair (n : Nat) : s.closer? n = some j ↔ t.pair = some n :=
    closer?_iff_pair hs ht (by rw [hparen]; rfl)
  have heq := ((hpair _).1 hi).symm.trans ((hpair _).1 hk)
  obtain rfl : k = i + 1 := by
    have := Option.some.inj heq
    omega
  have hkind := kind_eq_of_isAt hawait (isAt_iff.2 ⟨p, hp, rfl⟩)
  rw [← hkind] at hword
  simp at hword

theorem needsGuard_iff {source : List Char} {s : Stream} (hs : scan source = .ok s) {i : Nat} {t : Token} :
    s.needsGuard i t ↔ t.lineBreak ∧ t.context.holdsStatements ∧
      ∃ j p, i = j + 1 ∧ s.tokens[j]? = some p ∧ s.EndsOperand j p := by
  unfold needsGuard
  rw [Bool.and_eq_true, Bool.and_eq_true, and_assoc]
  refine and_congr_right fun _ => and_congr_right fun _ => ?_
  rw [Option.any_eq_true]
  constructor
  · rintro ⟨p, hp, hends⟩
    cases i with
    | zero => cases hp
    | succ j =>
      rw [before?_succ] at hp
      exact ⟨j, p, rfl, hp, (endsOperand_iff hs hp).1 hends⟩
  · rintro ⟨j, p, rfl, hp, hends⟩
    exact ⟨p, by rwa [before?_succ], (endsOperand_iff hs hp).2 hends⟩

theorem head?_render_reference {s : Stream} {i : Nat} {t : Token} (hrole : t.role = some .reference)
    (access : Access) :
    ((s.referenceForm i t).render t.text access).toList.head? = some ';' ↔ s.needsGuard i t := by
  unfold referenceForm
  rw [hrole, if_neg (by decide), if_neg (by decide)]
  cases s.needsGuard i t <;> simp [ReferenceForm.render]

/-- The token at `j` closes a brace in statements that directly follows a parenthesis: the body of a function,
of a method, or of a statement with a head. -/
def ClosesBody (s : Stream) (j : Nat) : Prop :=
  ∃ k p a, s.closer? (k + 1) = some j ∧ s.tokens[k]? = some p ∧ s.tokens[k + 1]? = some a ∧
    p.kind = .closeParen ∧ a.kind = .openBrace ∧ a.context.holdsStatements

theorem not_endsOperand_of_closesBody {source : List Char} {s : Stream} (hs : scan source = .ok s) {j : Nat}
    {t : Token} (ht : s.tokens[j]? = some t) (h : s.ClosesBody j) : ¬ s.EndsOperand j t := by
  obtain ⟨k, p, a, hpair, hp, ha, hparen, hbrace, hstatements⟩ := h
  have hcode : a.context.isJsx = false := by
    revert hstatements
    cases a.context <;> simp [Region.holdsStatements, Region.isJsx]
  have hgroup := block_of_brace_after_paren hs hp ha hparen hbrace hcode
  rw [group_eq_of_closer? hs hpair ha ht] at hgroup
  have hkind : t.kind = .closeBrace := by
    obtain ⟨j', hj', hat⟩ := (wellFormed_of_scan hs).brace (k + 1) (by simp [isAt, kind?, ha, hbrace])
    obtain rfl : j' = j := Option.some.inj (hj'.symm.trans hpair)
    obtain ⟨u, hu, hk⟩ := isAt_iff.1 hat
    rw [ht] at hu
    cases hu
    exact hk
  intro hends
  cases hends with
  | brace _ hblock hclass => exact hgroup.elim hclass hblock
  | name h | update h | tag h => rcases h with h | h <;> rw [hkind] at h <;> cases h
  | literal h | word h => rw [hkind] at h; cases h
  | template h | bracket h | paren h => rw [hkind] at h; cases h

end Stream

/-- The text for a rewritten reference begins with a semicolon exactly if the reference begins a line in
statements and the token before it ends an expression. The brace that closes a body counts as such an end
nowhere, so not where the body is that of a function expression. -/
theorem Context.semicolon_iff {x : Context} {spans : List Span} {es : List Edit}
    (hs : scan x.source = .ok x.stream) (h : (x.referencesEdits spans).toExcept = .ok es) {e : Edit}
    (he : e ∈ es) :
    ∃ i t o access, x.Rewritten i t o access ∧ e.span = t.span ∧
      (t.role = some .reference →
        (e.text.toList.head? = some ';' ↔ t.lineBreak ∧ t.context.holdsStatements ∧
          ∃ j p, i = j + 1 ∧ x.stream.tokens[j]? = some p ∧ x.stream.EndsOperand j p) ∧
        ∀ j, i = j + 1 → x.stream.ClosesBody j → e.text.toList.head? ≠ some ';') := by
  obtain ⟨i, t, o, access, hrewritten, rfl⟩ := x.rewritten_of_mem h he
  refine ⟨i, t, o, access, hrewritten, rfl, fun hrole => ?_⟩
  have hiff := (Stream.head?_render_reference (s := x.stream) (i := i) hrole access).trans
    (Stream.needsGuard_iff hs)
  refine ⟨hiff, fun j hj hbody hsemicolon => ?_⟩
  obtain ⟨_, _, j', p, hj', hp, hends⟩ := hiff.1 hsemicolon
  obtain rfl : j' = j := by omega
  exact Stream.not_endsOperand_of_closesBody hs hp hbody hends

theorem Context.semicolon_before_line : ∃ s m es e t,
    scan "import \x7b a \x7d from 'm';\nlet b = c\na();".toList = .ok s ∧ s.toModule = .ok m ∧
      ((Context.ofModule "import \x7b a \x7d from 'm';\nlet b = c\na();".toList s m true).referencesEdits
        (m.items.filterMap consumedSpan)).toExcept = .ok es ∧ e ∈ es ∧ s.tokens[11]? = some t ∧
      t.role = some .reference ∧ e.span = t.span ∧ e.text.toList.head? = some ';' := by
  obtain ⟨s, m, hs, hm, h⟩ := exists_of_acceptsModule
    "import \x7b a \x7d from 'm';\nlet b = c\na();".toList
    (fun s m => match ((Context.ofModule "import \x7b a \x7d from 'm';\nlet b = c\na();".toList s m
        true).referencesEdits (m.items.filterMap consumedSpan)).toExcept with
      | .ok [e] => s.tokens[11]?.any (fun t => t.role = some .reference && t.lineBreak &&
          t.context.holdsStatements && e.span = t.span) && s.tokens[10]?.any (·.kind = .identifier)
      | .ok [] | .ok (_ :: _ :: _) | .error _ => false) (by decide +kernel)
  split at h
  · rename_i e hes
    simp only [Bool.and_eq_true, Option.any_eq_true, decide_eq_true_eq] at h
    obtain ⟨⟨t, ht, ⟨⟨hrole, hbreak⟩, hstatements⟩, hspan⟩, p, hp, hname⟩ := h
    obtain ⟨i, u, o, access, hrewritten, huspan, hiff⟩ :=
      Context.semicolon_iff (x := .ofModule _ s m true) hs hes List.mem_cons_self
    have hstart : u.start = t.start := congrArg Span.start (huspan.symm.trans hspan)
    obtain rfl := (Stream.wellFormed_of_scan hs).index_eq_of_start hrewritten.token ht hstart
    obtain rfl : u = t := Option.some.inj (hrewritten.token.symm.trans ht)
    refine ⟨s, m, _, e, u, hs, hm, hes, List.mem_cons_self, ht, hrole, hspan, (hiff hrole).1.2 ?_⟩
    exact ⟨hbreak, hstatements, 10, p, rfl, hp, .name (.inl hname)⟩
  all_goals cases h

/-- The parenthesis that is written for `a` calls the function that the line before ends in. -/
theorem Context.no_semicolon_after_function : ∃ s m es t,
    scan "import \x7b a \x7d from 'm';\nconst f = function () \x7b\x7d\na();\n".toList = .ok s ∧
      s.toModule = .ok m ∧
      ((Context.ofModule "import \x7b a \x7d from 'm';\nconst f = function () \x7b\x7d\na();\n".toList s m
        true).referencesEdits (m.items.filterMap consumedSpan)).toExcept = .ok es ∧
      s.isAt 9 .equals ∧ s.isAt 10 (.keyword .function) ∧ s.closer? 13 = some 14 ∧ s.tokens[15]? = some t ∧
      t.role = some .reference ∧ t.lineBreak ∧ t.context.holdsStatements ∧
      es = [⟨t.span, "(0, _m.a)"⟩] := by
  obtain ⟨s, m, hs, hm, h⟩ := exists_of_acceptsModule
    "import \x7b a \x7d from 'm';\nconst f = function () \x7b\x7d\na();\n".toList
    (fun s m => s.isAt 9 .equals && s.isAt 10 (.keyword .function) && s.closer? 13 = some 14 &&
      s.tokens[15]?.any (fun t => t.role = some .reference && t.lineBreak && t.context.holdsStatements &&
        match ((Context.ofModule "import \x7b a \x7d from 'm';\nconst f = function () \x7b\x7d\na();\n".toList s
          m true).referencesEdits (m.items.filterMap consumedSpan)).toExcept with
        | .ok es => es = [⟨t.span, "(0, _m.a)"⟩]
        | .error _ => false)) (by decide +kernel)
  simp only [Bool.and_eq_true, Option.any_eq_true, decide_eq_true_eq] at h
  obtain ⟨⟨⟨hequals, hfunction⟩, hcloser⟩, t, ht, ⟨⟨hrole, hbreak⟩, hstatements⟩, hes⟩ := h
  split at hes
  · rename_i es hok
    exact ⟨s, m, es, t, hs, hm, hok, hequals, hfunction, hcloser, ht, hrole, hbreak, hstatements,
      of_decide_eq_true hes⟩
  · cases hes

/-- After the parenthesis that closes the head of a statement, whose body the reference begins, a semicolon is
written for no head but that of a loop with `await`; there it stands wherever the reference begins a line. -/
theorem Context.head_semicolon_iff {x : Context} {spans : List Span} {es : List Edit}
    (hs : scan x.source = .ok x.stream) (h : (x.referencesEdits spans).toExcept = .ok es) {e : Edit}
    (he : e ∈ es) :
    ∃ i t o access, x.Rewritten i t o access ∧ e.span = t.span ∧
      (t.role = some .reference → ∀ j, i = j + 1 → x.stream.isAt j .closeParen →
        x.stream.ClosesHead j ∨ x.stream.ClosesAwaitHead j →
        (e.text.toList.head? = some ';' ↔
          x.stream.ClosesAwaitHead j ∧ t.lineBreak ∧ t.context.holdsStatements)) := by
  obtain ⟨i, t, o, access, hrewritten, rfl⟩ := x.rewritten_of_mem h he
  refine ⟨i, t, o, access, hrewritten, rfl, ?_⟩
  rintro hrole j rfl hparen hhead
  obtain ⟨p, hp, hkind⟩ := Stream.isAt_iff.1 hparen
  rw [Stream.head?_render_reference hrole access, Stream.needsGuard_iff hs]
  constructor
  · rintro ⟨hbreak, hstatements, j', p', hj, hp', hends⟩
    obtain rfl : j' = j := by omega
    obtain rfl : p' = p := Option.some.inj (hp'.symm.trans hp)
    exact ⟨hhead.resolve_left ((Stream.endsOperand_paren_iff hkind).1 hends), hbreak, hstatements⟩
  · rintro ⟨hawait, hbreak, hstatements⟩
    exact ⟨hbreak, hstatements, j, p, rfl, hp,
      (Stream.endsOperand_paren_iff hkind).2 (Stream.not_closesHead_of_await hs hp hkind hawait)⟩

theorem Context.no_semicolon_after_while : ∃ s m es e t,
    scan "import \x7b a \x7d from 'm';\nwhile (b)\na();".toList = .ok s ∧ s.toModule = .ok m ∧
      ((Context.ofModule "import \x7b a \x7d from 'm';\nwhile (b)\na();".toList s m true).referencesEdits
        (m.items.filterMap consumedSpan)).toExcept = .ok es ∧ e ∈ es ∧ s.tokens[11]? = some t ∧
      t.role = some .reference ∧ e.span = t.span ∧ t.lineBreak ∧ s.isAt 10 .closeParen ∧ s.ClosesHead 10 ∧
      e.text.toList.head? ≠ some ';' := by
  obtain ⟨s, m, hs, hm, h⟩ := exists_of_acceptsModule "import \x7b a \x7d from 'm';\nwhile (b)\na();".toList
    (fun s m => match ((Context.ofModule "import \x7b a \x7d from 'm';\nwhile (b)\na();".toList s m
        true).referencesEdits (m.items.filterMap consumedSpan)).toExcept with
      | .ok [e] => s.tokens[11]?.any (fun t => t.role = some .reference && t.lineBreak && e.span = t.span) &&
          s.isAt 10 .closeParen && s.closer? 8 = some 10 && s.isAt 7 (.keyword .«while»)
      | .ok [] | .ok (_ :: _ :: _) | .error _ => false) (by decide +kernel)
  split at h
  · rename_i e hes
    simp only [Bool.and_eq_true, Option.any_eq_true, decide_eq_true_eq] at h
    obtain ⟨⟨⟨⟨t, ht, ⟨hrole, hbreak⟩, hspan⟩, hparen⟩, hcloser⟩, hwhile⟩ := h
    obtain ⟨p, hp, hword⟩ := Stream.isAt_iff.1 hwhile
    have hhead : s.ClosesHead 10 := ⟨7, p, hcloser, hp, by simp [hword]⟩
    obtain ⟨i, u, o, access, hrewritten, huspan, hiff⟩ :=
      Context.head_semicolon_iff (x := .ofModule _ s m true) hs hes List.mem_cons_self
    have hstart : u.start = t.start := congrArg Span.start (huspan.symm.trans hspan)
    obtain rfl := (Stream.wellFormed_of_scan hs).index_eq_of_start hrewritten.token ht hstart
    obtain rfl : u = t := Option.some.inj (hrewritten.token.symm.trans ht)
    refine ⟨s, m, _, e, u, hs, hm, hes, List.mem_cons_self, ht, hrole, hspan, hbreak, hparen, hhead, ?_⟩
    intro hsemicolon
    obtain ⟨p', hp', hparen'⟩ := Stream.isAt_iff.1 hparen
    exact Stream.not_closesHead_of_await hs hp' hparen'
      ((hiff hrole 10 rfl hparen (.inl hhead)).1 hsemicolon).1 hhead
  all_goals cases h

/-- The loop is left with an empty body. -/
theorem Context.semicolon_after_await_head : ∃ s m es t,
    scan "import \x7b a \x7d from 'm';\nfor await (const b of c)\na(b);\n".toList = .ok s ∧
      s.toModule = .ok m ∧
      ((Context.ofModule "import \x7b a \x7d from 'm';\nfor await (const b of c)\na(b);\n".toList s m
        true).referencesEdits (m.items.filterMap consumedSpan)).toExcept = .ok es ∧
      s.isAt 14 .closeParen ∧ s.ClosesAwaitHead 14 ∧ s.tokens[15]? = some t ∧ t.role = some .reference ∧
      es = [⟨t.span, ";(0, _m.a)"⟩] := by
  obtain ⟨s, m, hs, hm, h⟩ := exists_of_acceptsModule
    "import \x7b a \x7d from 'm';\nfor await (const b of c)\na(b);\n".toList
    (fun s m => s.isAt 14 .closeParen && s.closer? 9 = some 14 && s.isAt 7 (.keyword .«for») &&
      s.isAt 8 (.keyword .await) && s.tokens[15]?.any (fun t => t.role = some .reference &&
        match ((Context.ofModule "import \x7b a \x7d from 'm';\nfor await (const b of c)\na(b);\n".toList s m
          true).referencesEdits (m.items.filterMap consumedSpan)).toExcept with
        | .ok es => es = [⟨t.span, ";(0, _m.a)"⟩]
        | .error _ => false)) (by decide +kernel)
  simp only [Bool.and_eq_true, Option.any_eq_true, decide_eq_true_eq] at h
  obtain ⟨⟨⟨⟨hparen, hcloser⟩, hfor⟩, hawait⟩, t, ht, hrole, hes⟩ := h
  split at hes
  · rename_i es hok
    exact ⟨s, m, es, t, hs, hm, hok, hparen, ⟨7, hcloser, hfor, hawait⟩, ht, hrole, of_decide_eq_true hes⟩
  · cases hes

end ModuleLowering
