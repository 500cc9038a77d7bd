import ModuleLowering.Proofs.Role.Tags
import ModuleLowering.Proofs.Scan.Frames

namespace ModuleLowering

open Text

def Kind.namesExport (kind : Kind) : Bool := kind = .string || kind.isIdentifierName

namespace Lexeme

theorem stringLength_cons {quote c : Char} (hc : c ≠ '\\') (rest : List Char) :
    stringLength quote (c :: rest) =
      if isNewline c then none else if c = quote then some 1 else (stringLength quote rest).map (· + 1) := by
  rw [stringLength]
  · exact fun _ h => absurd h hc
  · exact fun _ _ h => absurd h hc

theorem exists_of_stringLength {quote : Char} (hquote : quote ≠ '\\') {text : List Char} {n : Nat}
    (h : stringLength quote text = some n) :
    ∃ body tail, text = body ++ tail ∧ body.length = n ∧ body ≠ [] ∧
      ∀ rest, stringLength quote (body ++ rest) = some n := by
  fun_induction stringLength quote text generalizing n with
  | case1 | case4 => cases h
  | case2 rest ih =>
    obtain ⟨k, hk, rfl⟩ := Option.map_eq_some_iff.1 h
    obtain ⟨body, tail, rfl, rfl, _, hbody⟩ := ih hk
    refine ⟨'\\' :: '\r' :: '\n' :: body, tail, rfl, rfl, List.cons_ne_nil _ _, fun rest => ?_⟩
    simp [stringLength, hbody]
  | case3 c rest hnot ih =>
    obtain ⟨k, hk, rfl⟩ := Option.map_eq_some_iff.1 h
    obtain ⟨body, tail, rfl, rfl, hne, hbody⟩ := ih hk
    refine ⟨'\\' :: c :: body, tail, rfl, rfl, List.cons_ne_nil _ _, fun rest => ?_⟩
    -- The line feed of a line break would be the first character of the body, too.
    obtain ⟨d, ds, rfl⟩ := List.exists_cons_of_ne_nil hne
    rw [List.cons_append, List.cons_append, stringLength, hbody]
    · rfl
    · rintro tail' rfl heq
      obtain ⟨rfl, _⟩ := List.cons.inj heq
      exact hnot _ rfl rfl
  | case5 rest _ _ hnew =>
    cases h
    exact ⟨[quote], rest, rfl, rfl, List.cons_ne_nil _ _, fun rest => by simp [stringLength_cons hquote, hnew]⟩
  | case6 c rest _ hnot hnew hne ih =>
    obtain ⟨k, hk, rfl⟩ := Option.map_eq_some_iff.1 h
    obtain ⟨body, tail, rfl, rfl, hbodyne, hbody⟩ := ih hk
    have hc : c ≠ '\\' := by
      obtain ⟨d, ds, rfl⟩ := List.exists_cons_of_ne_nil hbodyne
      exact fun hc => hnot d (ds ++ tail) hc rfl
    refine ⟨c :: body, tail, rfl, rfl, List.cons_ne_nil _ _, fun rest => ?_⟩
    simp [stringLength_cons hc, hnew, hne, hbody]

/-- A string literal of code. What follows it does not change where it ends. -/
def IsLiteral (raw : List Char) : Prop :=
  ∃ quote body, (quote = '"' ∨ quote = '\'') ∧ raw = quote :: body ∧
    ∀ rest, stringLength quote (body ++ rest) = some body.length

def IsName (text : List Char) : Prop := ∀ c ∈ text, isJsxNamePart c

instance (text : List Char) : Decidable (IsName text) := List.decidableBAll _ text

theorem isName_of_isAlpha {text : List Char} (h : ∀ c ∈ text, c.isAlpha) : IsName text :=
  fun c hc => isJsxNamePart_of_start (by simp [isIdentifierStart, h c hc])

theorem IsName.ne {text : List Char} (h : IsName text) {c d : Char} (hc : c ∈ text) (hd : isJsxNamePart d = false) :
    c ≠ d := by
  rintro rfl
  rw [h c hc] at hd
  cases hd

theorem stringLength_name {name : List Char} (h : IsName name) (rest : List Char) :
    stringLength '"' (name ++ '"' :: rest) = some (name.length + 1) := by
  induction name with
  | nil => rfl
  | cons c name ih =>
    have hne {d : Char} (hd : isJsxNamePart d = false) : c ≠ d := h.ne List.mem_cons_self hd
    have hnew : isNewline c = false := by simp [isNewline, hne (d := '\n') (by decide), hne (d := '\r') (by decide)]
    rw [List.cons_append, stringLength_cons (hne (by decide)), hnew, if_neg (by simp), if_neg (hne (by decide)),
      ih fun d hd => h d (List.mem_cons_of_mem c hd)]
    rfl

theorem isLiteral_quoted {name : List Char} (h : IsName name) : IsLiteral ('"' :: (name ++ ['"'])) :=
  ⟨'"', name ++ ['"'], .inl rfl, rfl, fun rest => by simpa using stringLength_name h rest⟩

inductive NameText (kind : Kind) (text : List Char) : Prop
  | literal (hk : kind = .string) (h : IsLiteral text)
  | name (hk : kind.isIdentifierName) (h : '\\' ∉ text → IsName text)

variable {start : Nat} {c : Char} {rest : List Char} {l : Lexeme}

theorem nameText_word {previous : Option Token} {n : Nat}
    (h : nameLength isIdentifierPart start (c :: rest) = .ok (n + 1)) :
    NameText (wordKind previous (String.ofList (c :: rest.take n))) (c :: rest.take n) := by
  refine .name ?_ fun hescape d hd => ?_
  · rcases wordKind_cases previous (String.ofList (c :: rest.take n)) with hk | ⟨_, _, hk⟩ <;> rw [hk] <;> rfl
  · have hpart := isPart_of_nameLength h (by simpa using hescape) d (by simpa using hd)
    simp [isJsxNamePart, hpart]

theorem CodeReading.nameText {previous : Option Token} {inSubstitution : Bool}
    (h : CodeReading previous inSubstitution start c rest l) (hk : l.kind.namesExport) :
    NameText l.kind (c :: rest.take l.extra) := by
  cases h with
  | string hquote h =>
    have hnot : c ≠ '\\' := by rcases hquote with rfl | rfl <;> decide
    obtain ⟨body, tail, rfl, rfl, _, hbody⟩ := exists_of_stringLength hnot h
    exact .literal rfl ⟨c, body, hquote, by rw [List.take_left], hbody⟩
  | chunk _ _ h => cases h <;> cases hk
  | word h => exact nameText_word h
  | @punctuator _ _ _ kind h =>
    have hnot : kind.namesExport = false := of_punctuator? (P := fun kind => kind.namesExport = false) (by decide) h
    rw [hnot] at hk
    cases hk
  | _ => cases hk

theorem TagReading.isName (h : TagReading start c rest l) (hk : l.kind.isIdentifierName)
    (hescape : '\\' ∉ c :: rest.take l.extra) : IsName (c :: rest.take l.extra) := by
  cases h with
  | @name _ _ n hc h =>
    cases n with
    | zero => exact List.forall_mem_singleton.2 (isJsxNamePart_of_start hc)
    | succ n => exact isPart_of_nameLength h hescape
  | _ => cases hk

theorem ChildReading.namesExport (h : ChildReading c rest l) : l.kind.namesExport = false := by
  cases h <;> rfl

end Lexeme

open Lexeme

theorem Scanner.nameText_of_lexeme {s : Scanner} {c : Char} {rest : List Char} {l : Lexeme}
    (h : s.lexeme c rest = .ok l) (hk : l.kind.namesExport) :
    NameText l.kind (c :: rest.take l.extra) ∨ (l.kind = .string ∧ inMarkup s.nesting.frames) := by
  cases reads_of_lexeme h with
  | code _ h => exact .inl (h.nameText hk)
  | tag hframes h =>
    by_cases hstring : l.kind = .string
    · exact .inr ⟨hstring, by simp [hframes, inMarkup, Frame.isGroup]⟩
    · have hname : l.kind.isIdentifierName := by simpa [Kind.namesExport, hstring] using hk
      exact .inl (.name hname (h.isName hname))
  | child _ h =>
    rw [h.namesExport] at hk
    cases hk

def Token.setting (t : Token) : Kind × String × Region := (t.kind, t.text, t.context)

def IsNamed (p : Kind × String × Region) : Prop :=
  p.1.namesExport → NameText p.1 p.2.1.toList ∨ (p.1 = .string ∧ p.2.2.isJsx)

theorem Scanner.named_step {s t : Scanner} {more : Bool} (h : ∀ p ∈ s.tokens.toList.map Token.setting, IsNamed p)
    (hstep : s.step = .ok (t, more)) : ∀ p ∈ t.tokens.toList.map Token.setting, IsNamed p := by
  obtain ⟨gap, _, ⟨_, rfl, _, _⟩ | ⟨_, c, rest, l, p, _, hl, hp, rfl⟩⟩ := step_cases hstep
  · exact h
  · have hmoves : Moves s.tokens.size ((s.advance gap.length).token gap.lineBreak c rest l p) s.nesting.frames _ :=
      Nesting.place_moves hp (lexeme_fits (s := s.advance gap.length) hl) rfl rfl rfl rfl rfl
    rw [push_tokens, map_record _ fun _ _ => rfl]
    refine List.forall_mem_append.2 ⟨h, List.forall_mem_singleton.2 fun hk => ?_⟩
    refine (nameText_of_lexeme hl hk).imp (fun htext => ?_) fun ⟨hstring, hmarkup⟩ => ⟨hstring, ?_⟩
    · rwa [← String.toList_ofList (l := c :: rest.take l.extra)] at htext
    · have hjsx := isJsx_of_inMarkup hmarkup
      change Token.context _ |>.isJsx
      rw [hmoves.context_of_isJsx hjsx]
      exact hjsx

namespace Stream

theorem named_of_read {source : List Char} {r : Stream} (h : Stream.read source = .ok r) {i : Nat} {t : Token}
    (ht : r.tokens[i]? = some t) : IsNamed t.setting := by
  obtain ⟨u, hu, _, rfl⟩ := read_eq_ok h
  have hall := (Scanner.run_induction (P := fun u => ∀ p ∈ u.tokens.toList.map Token.setting, IsNamed p)
    (fun _ _ _ => Scanner.named_step) (by simp [Scanner.start]) hu).1
  exact hall _ (List.mem_map_of_mem (Array.mem_toList_iff.2 (Array.mem_of_getElem? ht)))

theorem nameText_of_scan {source : List Char} {s : Stream} (h : scan source = .ok s) {i : Nat} {t : Token}
    (ht : s.tokens[i]? = some t) (hk : t.kind.namesExport)
    (hnext : t.kind = .string → ∃ u, s.tokens[i + 1]? = some u ∧ u.kind.isJsxPart = false) :
    NameText t.kind t.text.toList := by
  obtain ⟨r, hr, ho⟩ := outline_of_scan h
  obtain ⟨t', ht', hsame⟩ := exists_of_outline ho ht
  have hword : t'.outline.word = t.outline.word := congrArg Token.word hsame
  obtain ⟨hkind, htext⟩ : t'.kind = t.kind ∧ t'.text = t.text := Prod.mk.injEq .. ▸ hword
  have hnamed := named_of_read hr ht'
  rw [← hkind] at hk hnext ⊢
  rw [← htext]
  refine (hnamed hk).resolve_right fun ⟨hstring, hjsx⟩ => ?_
  obtain ⟨n, hn⟩ := exists_history hr
  obtain ⟨u, hu, hpart⟩ := hnext hstring
  obtain ⟨u', hu', hsame'⟩ := exists_of_outline ho hu
  have hpart' : u'.outline.kind.isJsxPart = false := by rwa [hsame']
  have hout := hn.not_inMarkup hu' hpart'
  obtain ⟨hframes, _, hcontext⟩ := hn.steady ht' (by rw [show t'.kind = _ from hstring]; rfl)
  rw [hframes] at hout
  have hcode := hn.isJsx_frameContext (Nat.le_of_lt (lt_size_of_getElem? ht')) hout
  rw [← hcontext] at hcode
  rw [show t'.context.isJsx = true from hjsx] at hcode
  cases hcode

end Stream

end ModuleLowering
