import ModuleLowering.Proofs.Role.WellFormed

namespace ModuleLowering

open Text

namespace Lexeme

variable {start : Nat} {c : Char} {rest : List Char} {l : Lexeme} {word : Keyword}

theorem spelling_of_wordKind {previous : Option Token} {text : String} (h : wordKind previous text = .keyword word) :
    text = word.spelling := by
  rcases wordKind_cases previous text with hk | ⟨found, hspelling, hk⟩
  · rw [hk] at h
    cases h
  · obtain rfl : found = word := Kind.keyword.inj (hk.symm.trans h)
    exact (Keyword.spelling_of_ofSpelling? hspelling).symm

theorem CodeReading.spelling {previous : Option Token} {inSubstitution : Bool}
    (h : CodeReading previous inSubstitution start c rest l) (hk : l.kind = .keyword word) :
    String.ofList (c :: rest.take l.extra) = word.spelling := by
  cases h with
  | chunk _ _ h => cases h <;> cases hk
  | word => exact spelling_of_wordKind hk
  | @punctuator _ _ _ kind h =>
    have hnot : kind.isKeyword = false := of_punctuator? (P := fun kind => kind.isKeyword = false) (by decide) h
    rw [show kind = _ from hk] at hnot
    cases hnot
  | _ => cases hk

end Lexeme

theorem Kind.isKeyword_of_isJsxPart {kind : Kind} (h : kind.isJsxPart) : kind.isKeyword = false := by
  cases kind with
  | keyword => cases h
  | _ => rfl

theorem Scanner.spelling_of_lexeme {s : Scanner} {c : Char} {rest : List Char} {l : Lexeme} {word : Keyword}
    (h : s.lexeme c rest = .ok l) (hk : l.kind = .keyword word) :
    String.ofList (c :: rest.take l.extra) = word.spelling := by
  have hmarkup (hpart : l.kind.isJsxPart) : False := by
    have hnot := Kind.isKeyword_of_isJsxPart hpart
    rw [hk] at hnot
    cases hnot
  cases reads_of_lexeme h with
  | code _ h => exact h.spelling hk
  | tag _ h => exact (hmarkup h.isJsxPart).elim
  | child _ h => exact (hmarkup h.isJsxPart).elim

def Token.word (t : Token) : Kind × String := (t.kind, t.text)

theorem Scanner.words_of_step {P : Kind × String → Prop}
    (hP : ∀ (s : Scanner) c rest l, s.lexeme c rest = .ok l → P (l.kind, String.ofList (c :: rest.take l.extra)))
    {s t : Scanner} {more : Bool} (h : ∀ p ∈ s.tokens.toList.map Token.word, P p)
    (hstep : s.step = .ok (t, more)) : ∀ p ∈ t.tokens.toList.map Token.word, P p := by
  obtain ⟨gap, _, ⟨_, rfl, _, _⟩ | ⟨_, c, rest, l, p, _, hl, _, rfl⟩⟩ := step_cases hstep
  · exact h
  · rw [push_tokens, map_record _ fun _ _ => rfl]
    intro q hq
    rcases List.mem_append.1 hq with hq | hq
    · exact h q hq
    · rw [List.mem_singleton.1 hq]
      exact hP _ c rest l hl

namespace Stream

theorem word_of_scan {P : Kind × String → Prop}
    (hP : ∀ (s : Scanner) c rest l, s.lexeme c rest = .ok l → P (l.kind, String.ofList (c :: rest.take l.extra)))
    {source : List Char} {s : Stream} (h : scan source = .ok s) {i : Nat} {t : Token} (ht : s.tokens[i]? = some t) :
    P t.word := by
  obtain ⟨r, hr, ho⟩ := outline_of_scan h
  obtain ⟨u, hu, _, rfl⟩ := read_eq_ok hr
  have hwords := (Scanner.run_induction (P := fun u => ∀ p ∈ u.tokens.toList.map Token.word, P p)
    (fun _ _ _ => Scanner.words_of_step hP) (by simp [Scanner.start]) hu).1
  rw [← Array.toList_map, ← map_eq_of_outline ho Token.word fun _ => rfl, Array.toList_map] at hwords
  exact hwords _ (List.mem_map_of_mem (Array.mem_toList_iff.2 (Array.mem_of_getElem? ht)))

theorem text_of_keyword {source : List Char} {s : Stream} (h : scan source = .ok s) {i : Nat} {word : Keyword}
    (hi : s.isAt i (.keyword word)) : ∃ t, s.tokens[i]? = some t ∧ t.text = word.spelling := by
  obtain ⟨t, ht, hk⟩ := Option.map_eq_some_iff.1 (of_decide_eq_true hi)
  exact ⟨t, ht, word_of_scan (P := fun p => p.1 = .keyword word → p.2 = word.spelling)
    (fun _ _ _ _ => Scanner.spelling_of_lexeme) h ht hk⟩

end Stream

end ModuleLowering
