import ModuleLowering.Proofs.Lexeme.Bytes
import ModuleLowering.Proofs.Role.Words
import ModuleLowering.Proofs.Scan.Escapes

namespace ModuleLowering

open Text

def isBare (c : Char) : Bool := c != ';' && !isBlank c && !isLineBreak c

def EndsBare (text : List Char) : Prop := ∃ c, text.getLast? = some c ∧ isBare c

theorem EndsBare.snoc {c : Char} (h : isBare c) (text : List Char) : EndsBare (text ++ [c]) :=
  ⟨c, List.getLast?_concat, h⟩

theorem EndsBare.of_forall {text : List Char} (hne : text ≠ []) (h : ∀ c ∈ text, isBare c) : EndsBare text :=
  ⟨text.getLast hne, List.getLast?_eq_some_getLast hne, h _ (List.getLast_mem hne)⟩

theorem EndsBare.append {first last : List Char} (h : EndsBare first) (hlast : ∀ c ∈ last, isBare c) :
    EndsBare (first ++ last) := by
  obtain ⟨c, hc, hbare⟩ := h
  by_cases hne : last = []
  · rw [hne, List.append_nil]
    exact ⟨c, hc, hbare⟩
  · obtain ⟨d, hd, hbare⟩ := EndsBare.of_forall hne hlast
    exact ⟨d, by rw [List.getLast?_append, hd, Option.some_or], hbare⟩

theorem isBare_of_isIdentifierPart {c : Char} (h : isIdentifierPart c = true) : isBare c = true := by
  have hspaces : ∀ k < 11, isIdentifierPart (Char.ofNat (0x2000 + k)) = false := by decide +kernel
  rw [← Bool.not_eq_false]
  intro hnot
  simp only [isBare, Bool.and_eq_false_iff, bne_eq_false_iff_eq, Bool.not_eq_false'] at hnot
  rcases hnot with (rfl | hblank) | hbreak
  · exact absurd h (by decide +kernel)
  · simp only [isBlank, Bool.or_eq_true, beq_iff_eq, Bool.and_eq_true, decide_eq_true_eq] at hblank
    by_cases hrange : 0x2000 ≤ c.toNat ∧ c.toNat ≤ 0x200A
    · have hc := hspaces (c.toNat - 0x2000) (by omega)
      rw [show 0x2000 + (c.toNat - 0x2000) = c.toNat by omega, Char.ofNat_toNat, h] at hc
      cases hc
    · simp only [hrange, or_false] at hblank
      rcases hblank with (((((((((rfl | rfl) | rfl) | rfl) | rfl) | rfl) | rfl) | rfl) | rfl) | rfl)
      all_goals exact absurd h (by decide +kernel)
  · simp only [isLineBreak, Bool.or_eq_true, beq_iff_eq] at hbreak
    rcases hbreak with ((rfl | rfl) | rfl) | rfl
    all_goals exact absurd h (by decide +kernel)

namespace Lexeme

theorem take_of_map {x : Option Nat} {n : Nat} {rest : List Char} {last : Char} (read : List Char)
    (h : x.map (· + read.length) = some n) (ih : ∀ {k}, x = some k → ∃ body, rest.take k = body ++ [last]) :
    ∃ body, (read ++ rest).take n = body ++ [last] := by
  obtain ⟨k, hk, rfl⟩ := Option.map_eq_some_iff.1 h
  obtain ⟨body, hbody⟩ := ih hk
  refine ⟨read ++ body, ?_⟩
  rw [Nat.add_comm, List.take_length_add_append, hbody, List.append_assoc]

theorem take_of_stringLength {quote : Char} {rest : List Char} {n : Nat} (h : stringLength quote rest = some n) :
    ∃ body, rest.take n = body ++ [quote] := by
  fun_induction stringLength quote rest generalizing n with
  | case1 | case4 => cases h
  | case2 rest ih => exact take_of_map ['\\', '\r', '\n'] h ih
  | case3 c rest _ ih => exact take_of_map ['\\', c] h ih
  | case5 rest =>
    cases h
    exact ⟨[], rfl⟩
  | case6 c rest _ _ _ _ ih => exact take_of_map [c] h ih

def ChunkEnd.last : ChunkEnd → Char
  | backquote => '`'
  | substitution => '{'

theorem take_of_chunkLength {rest : List Char} {n : Nat} {e : ChunkEnd} (h : chunkLength rest = some (n, e)) :
    ∃ body, rest.take n = body ++ [e.last] := by
  fun_induction chunkLength rest generalizing n with
  | case1 => cases h
  | case2 =>
    cases h
    exact ⟨[], rfl⟩
  | case3 d rest ih =>
    obtain ⟨⟨k, _⟩, hk, he⟩ := Option.map_eq_some_iff.1 h
    cases he
    exact take_of_map ['\\', d] (x := some k) rfl (by rintro _ ⟨⟩; exact ih hk)
  | case4 =>
    cases h
    exact ⟨['$'], rfl⟩
  | case5 d rest _ _ _ ih =>
    obtain ⟨⟨k, _⟩, hk, he⟩ := Option.map_eq_some_iff.1 h
    cases he
    exact take_of_map [d] (x := some k) rfl (by rintro _ ⟨⟩; exact ih hk)

theorem take_of_regexLength {inClass : Bool} {rest : List Char} {n : Nat} (h : regexLength inClass rest = some n) :
    ∃ body, rest.take n = body ++ ['/'] := by
  fun_induction regexLength inClass rest generalizing n with
  | case1 | case3 => cases h
  | case2 _ c rest ih => exact take_of_map ['\\', c] h ih
  | case4 _ rest _ _ ih => exact take_of_map ['['] h ih
  | case5 _ rest _ _ _ ih => exact take_of_map [']'] h ih
  | case6 _ c rest _ _ _ _ hslash =>
    cases h
    rw [Bool.and_eq_true, decide_eq_true_eq] at hslash
    exact ⟨[], by rw [hslash.1]; rfl⟩
  | case7 _ c rest _ _ _ _ _ ih => exact take_of_map [c] h ih

section

variable {p : Char → Bool} {text : List Char}

theorem forall_take_add {m n : Nat} (hm : ∀ c ∈ text.take m, p c) (hn : ∀ c ∈ (text.drop m).take n, p c) :
    ∀ c ∈ text.take (m + n), p c := by
  rw [List.take_add]
  exact fun c hc => (List.mem_append.1 hc).elim (hm c) (hn c)

theorem forall_take_takeWhile {q : Char → Bool} (hq : ∀ c, q c → p c) :
    ∀ c ∈ text.take (text.takeWhile q).length, p c := by
  have htake : text.take (text.takeWhile q).length = text.takeWhile q := by
    conv => lhs; arg 2; rw [← List.takeWhile_append_dropWhile (p := q) (l := text)]
    exact List.take_left
  rw [htake]
  exact fun c hc => hq c (List.all_eq_true.1 List.all_takeWhile c hc)

end

def isNumberPart (c : Char) : Bool := c.isAlphanum || c == '_' || c == '.' || c == '+' || c == '-'

theorem isNumberPart_digits {text : List Char} : ∀ c ∈ text.take (digitsLength text), isNumberPart c := by
  refine forall_take_takeWhile fun c hc => ?_
  rcases Bool.or_eq_true _ _ ▸ hc with hdigit | hline
  · simp [isNumberPart, Char.isAlphanum, hdigit]
  · simp [isNumberPart, hline]

theorem isNumberPart_fraction (text : List Char) : ∀ c ∈ text.take (fractionLength text), isNumberPart c := by
  unfold fractionLength
  split
  · rw [Nat.add_comm, List.take_succ_cons]
    exact List.forall_mem_cons.2 ⟨rfl, isNumberPart_digits⟩
  · simp

theorem isNumberPart_exponent (text : List Char) : ∀ c ∈ text.take (exponentLength text), isNumberPart c := by
  unfold exponentLength
  split
  · rename_i e rest
    split
    · rename_i he
      have hmark : isNumberPart e := by
        rw [Bool.or_eq_true, decide_eq_true_eq, decide_eq_true_eq] at he
        rcases he with rfl | rfl <;> decide
      have hsign (sign : Nat) (h : ∀ c ∈ rest.take sign, isNumberPart c) :
          ∀ c ∈ (e :: rest).take (if (rest.drop sign).head?.any (·.isDigit) then
            1 + sign + digitsLength (rest.drop sign) else 0), isNumberPart c := by
        split
        · rw [Nat.add_assoc, Nat.add_comm, List.take_succ_cons]
          exact List.forall_mem_cons.2 ⟨hmark, forall_take_add h isNumberPart_digits⟩
        · simp
      dsimp only
      split <;> exact hsign _ (by simp [isNumberPart])
    · simp
  · simp

theorem isNumberPart_bigMark (text : List Char) : ∀ c ∈ text.take (bigMarkLength text), isNumberPart c := by
  unfold bigMarkLength
  split
  · rw [List.take_succ_cons, List.take_zero]
    exact List.forall_mem_singleton.2 (by decide)
  · simp

theorem isNumberPart_decimal (text : List Char) : ∀ c ∈ text.take (decimalLength text), isNumberPart c := by
  refine forall_take_add (forall_take_add (forall_take_add isNumberPart_digits ?_) ?_) ?_
  · exact isNumberPart_fraction _
  · exact isNumberPart_exponent _
  · exact isNumberPart_bigMark _

theorem isNumberPart_number (text : List Char) : ∀ c ∈ text.take (numberLength text), isNumberPart c := by
  unfold numberLength
  split
  · rename_i mark rest
    split
    · rename_i hmark
      rw [Nat.add_comm, List.take_succ_cons, List.take_succ_cons]
      refine List.forall_mem_cons.2 ⟨rfl, List.forall_mem_cons.2 ⟨?_, forall_take_takeWhile fun c hc => ?_⟩⟩
      · simp only [List.mem_cons, List.not_mem_nil, or_false] at hmark
        rcases hmark with rfl | rfl | rfl | rfl | rfl | rfl <;> decide
      · rw [Bool.or_eq_true] at hc
        rcases hc with hc | hc <;> simp [isNumberPart, hc]
    · exact isNumberPart_decimal _
  · exact isNumberPart_decimal _

theorem mem_take_of_pos {c : Char} {rest : List Char} {n : Nat} (h : 0 < n) : c ∈ (c :: rest).take n := by
  cases n with
  | zero => cases h
  | succ n => exact List.mem_cons_self

theorem isPart_of_nameLength {isPart : Char → Bool} {offset n : Nat} {text : List Char}
    (h : nameLength isPart offset text = .ok n) (hescape : '\\' ∉ text.take n) :
    ∀ c ∈ text.take n, isPart c := by
  fun_induction nameLength isPart offset text generalizing n with
  | case1 | case8 =>
    cases h
    simp
  | case2 | case5 | case6 => cases h
  | case3 | case4 =>
    obtain ⟨k, _, rfl⟩ := map_eq_ok_iff.1 h
    exact absurd (mem_take_of_pos (by omega)) hescape
  | case7 offset c rest _ _ hc ih =>
    obtain ⟨k, hk, rfl⟩ := map_eq_ok_iff.1 h
    rw [Nat.add_comm, List.take_succ_cons] at hescape ⊢
    rw [List.mem_cons, not_or] at hescape
    exact List.forall_mem_cons.2 ⟨hc, ih hk hescape.2⟩

inductive Ending (kind : Kind) (text : List Char) : Prop
  | bare (hsemicolon : kind ≠ .semicolon) (hjsx : kind ≠ .jsxText) (h : EndsBare text)
  | semicolon (hkind : kind = .semicolon) (h : text = [';'])
  | escape (hkind : kind.hasRole) (h : '\\' ∈ text)

variable {kind : Kind} {start n : Nat} {c last : Char} {rest : List Char} {l : Lexeme}

theorem Ending.ne_jsxText {text : List Char} (h : Ending kind text) : kind ≠ .jsxText := by
  cases h with
  | bare _ hjsx => exact hjsx
  | semicolon hkind => simp [hkind]
  | escape hkind =>
    rintro rfl
    cases hkind

theorem Ending.of_take (hsemicolon : kind ≠ .semicolon) (hjsx : kind ≠ .jsxText) (hlast : isBare last)
    (h : ∃ body, rest.take n = body ++ [last]) : Ending kind (c :: rest.take n) := by
  obtain ⟨body, hbody⟩ := h
  rw [hbody]
  exact .bare hsemicolon hjsx (EndsBare.snoc hlast (c :: body))

theorem Ending.single (hc : c = last) (hsemicolon : kind ≠ .semicolon) (hjsx : kind ≠ .jsxText)
    (hlast : isBare last) : Ending kind (c :: rest.take 0) :=
  .bare hsemicolon hjsx (EndsBare.snoc (hc ▸ hlast) [])

theorem take_of_head? (h : rest.head? = some c) : ∃ body, rest.take 1 = body ++ [c] := by
  obtain ⟨tail, rfl⟩ := List.head?_eq_some_iff.1 h
  exact ⟨[], rfl⟩

theorem ChunkEnd.isBare_last (e : ChunkEnd) : isBare e.last := by cases e <;> decide

theorem ChunkReading.ending {head : Bool} (h : ChunkReading rest head l) : Ending l.kind (c :: rest.take l.extra) := by
  cases h with
  | template h | tail h | head h | middle h =>
    exact .of_take nofun nofun (ChunkEnd.isBare_last _) (take_of_chunkLength h)

theorem ending_name (first : List Char) (hkind : kind.hasRole) {isPart : Char → Bool}
    (hpart : ∀ d, isPart d → isBare d) {text : List Char} (hn : nameLength isPart start text = .ok n)
    (hfirst : ∀ d ∈ first, isBare d) (hpos : first ++ text.take n ≠ []) :
    Ending kind (first ++ text.take n) := by
  by_cases hescape : '\\' ∈ text.take n
  · exact .escape hkind (List.mem_append_right first hescape)
  · refine .bare (by rintro rfl; cases hkind) (by rintro rfl; cases hkind) (EndsBare.of_forall hpos fun d hd => ?_)
    rcases List.mem_append.1 hd with hd | hd
    · exact hfirst d hd
    · exact hpart d (isPart_of_nameLength hn hescape d hd)

theorem endsBare_spelling (word : Keyword) : EndsBare word.spelling.toList := by
  have hall : ∀ word ∈ Keyword.all, word.spelling.toList.getLast?.any isBare := by decide +kernel
  exact (Option.any_eq_true _ _).1 (hall word word.mem_all)

theorem ending_word {previous : Option Token} (h : nameLength isIdentifierPart start (c :: rest) = .ok (n + 1)) :
    Ending (wordKind previous (String.ofList (c :: rest.take n))) (c :: rest.take n) := by
  rcases wordKind_cases previous (String.ofList (c :: rest.take n)) with hk | ⟨word, hspelling, hk⟩
  · rw [hk]
    exact ending_name [] rfl (fun _ => isBare_of_isIdentifierPart) h nofun nofun
  · rw [hk, ← String.toList_ofList (l := c :: rest.take n), ← Keyword.spelling_of_ofSpelling? hspelling]
    exact .bare nofun nofun (endsBare_spelling word)

theorem ending_punctuator (h : punctuator? (c :: rest) = some (n, kind)) : Ending kind (c :: rest.take (n - 1)) := by
  have hall : ∀ p ∈ punctuators, p.1.toList ≠ [] ∧ p.2 ≠ .jsxText ∧
      if p.2 = .semicolon then p.1.toList = [';'] else p.1.toList.all isBare := by decide +kernel
  rcases punctuator?_cases h with ⟨rfl, rfl, hhead⟩ | ⟨spelling, hmem, rfl, tail, htail⟩
  · exact .single (Option.some.inj hhead) nofun nofun (by decide)
  · obtain ⟨hne, hjsx, hchars⟩ := hall _ hmem
    dsimp only at hne hjsx hchars
    generalize spelling.toList = word at *
    obtain ⟨d, ds, rfl⟩ := List.exists_cons_of_ne_nil hne
    rw [List.cons_append] at htail
    obtain ⟨rfl, rfl⟩ := List.cons_eq_cons.1 htail
    rw [List.length_cons, Nat.add_sub_cancel, List.take_left]
    split at hchars
    · exact .semicolon ‹_› hchars
    · exact .bare ‹_› hjsx (EndsBare.of_forall hne (List.all_eq_true.1 hchars))

theorem isBare_of_isNumberPart (hc : isNumberPart c) : isBare c := by
  simp only [isNumberPart, Char.isAlphanum, Bool.or_eq_true, beq_iff_eq] at hc
  rcases hc with ((((halpha | hdigit) | rfl) | rfl) | rfl) | rfl
  · exact isBare_of_isIdentifierPart (by simp [isIdentifierPart, isIdentifierStart, halpha])
  · exact isBare_of_isIdentifierPart (by simp [isIdentifierPart, hdigit])
  all_goals decide

theorem ending_number (hc : isNumberPart c) :
    Ending .number (c :: rest.take (numberLength (c :: rest) - 1)) := by
  refine .bare nofun nofun (EndsBare.of_forall (List.cons_ne_nil _ _) fun d hd => isBare_of_isNumberPart ?_)
  have hall := isNumberPart_number (c :: rest)
  cases hn : numberLength (c :: rest) with
  | zero =>
    rw [hn] at hd
    rw [List.mem_singleton.1 hd]
    exact hc
  | succ n =>
    rw [hn, Nat.add_sub_cancel, ← List.take_succ_cons] at hd
    exact hall d (hn ▸ hd)

theorem isBare_of_quote (h : c = '"' ∨ c = '\'') : isBare c := by
  rcases h with rfl | rfl <;> decide

theorem CodeReading.ending {previous : Option Token} {inSubstitution : Bool}
    (h : CodeReading previous inSubstitution start c rest l) : Ending l.kind (c :: rest.take l.extra) := by
  cases h with
  | string hquote h => exact .of_take nofun nofun (isBare_of_quote hquote) (take_of_stringLength h)
  | chunk _ _ h => exact h.ending
  | number hc =>
    refine ending_number ?_
    rcases hc with hdigit | rfl
    · simp [isNumberPart, Char.isAlphanum, hdigit]
    · decide
  | privateName h =>
    exact ending_name ['#'] rfl (fun _ => isBare_of_isIdentifierPart) h (List.forall_mem_singleton.2 (by decide)) nofun
  | regex h =>
    obtain ⟨body, hbody⟩ := take_of_regexLength h
    refine .bare nofun nofun ?_
    dsimp only
    rw [List.take_add, hbody, ← List.cons_append]
    exact (EndsBare.snoc (by decide) (_ :: body)).append (forall_take_takeWhile fun _ => isBare_of_isIdentifierPart)
  | word h => exact ending_word h
  | question h | colon h | punctuator h => exact ending_punctuator h
  | _ => exact .single rfl nofun nofun (by decide)

theorem isBare_of_isJsxNamePart (hc : isJsxNamePart c) : isBare c := by
  rw [isJsxNamePart, Bool.or_eq_true, beq_iff_eq] at hc
  rcases hc with hpart | rfl
  · exact isBare_of_isIdentifierPart hpart
  · decide

theorem take_of_findIdx? (h : rest.findIdx? (· == c) = some n) : ∃ body, rest.take (n + 1) = body ++ [c] := by
  obtain ⟨hlt, hc, _⟩ := List.findIdx?_eq_some_iff_getElem.1 h
  refine ⟨rest.take n, ?_⟩
  rw [List.take_succ_eq_append_getElem hlt, beq_iff_eq.1 hc]

theorem TagReading.ending (h : TagReading start c rest l) : Ending l.kind (c :: rest.take l.extra) := by
  cases h with
  | slashGreater => exact .of_take nofun nofun (by decide) (take_of_head? rfl)
  | string hquote h => exact .of_take nofun nofun (isBare_of_quote hquote) (take_of_findIdx? h)
  | @name _ _ n hc h =>
    cases n with
    | zero => exact .single rfl nofun nofun (isBare_of_isJsxNamePart (isJsxNamePart_of_start hc))
    | succ n => exact ending_name [] rfl (fun _ => isBare_of_isJsxNamePart) h nofun nofun
  | _ => exact .single rfl nofun nofun (by decide)

theorem ChildReading.ending (h : ChildReading c rest l) :
    Ending l.kind (c :: rest.take l.extra) ∨ l.kind = .jsxText := by
  cases h with
  | lessSlash => exact .inl (.of_take nofun nofun (by decide) (take_of_head? rfl))
  | less | openBrace => exact .inl (.single rfl nofun nofun (by decide))
  | text => exact .inr rfl

end Lexeme

theorem Scanner.ending_of_lexeme {s : Scanner} {c : Char} {rest : List Char} {l : Lexeme}
    (h : s.lexeme c rest = .ok l) :
    Lexeme.Ending l.kind (c :: rest.take l.extra) ∨
      (l.kind = .jsxText ∧ frameContext s.nesting.frames = .jsxChildren) := by
  cases reads_of_lexeme h with
  | code _ h => exact .inl h.ending
  | tag _ h => exact .inl h.ending
  | child hframes h => exact h.ending.imp_right fun hk => ⟨hk, by rw [hframes]; rfl⟩

theorem Stream.ending_of_scan {source : List Char} {s : Stream} (h : scan source = .ok s) {i : Nat} {t : Token}
    (ht : s.tokens[i]? = some t) (hk : t.kind ≠ .jsxText) : Lexeme.Ending t.kind t.text.toList := by
  refine word_of_scan (P := fun p => p.1 ≠ .jsxText → Lexeme.Ending p.1 p.2.toList) ?_ h ht hk
  intro _ c rest l hl hk
  rw [String.toList_ofList]
  exact (Scanner.ending_of_lexeme hl).resolve_right fun hjsx => hk hjsx.1

end ModuleLowering
