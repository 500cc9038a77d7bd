import ModuleLowering.Nesting.Basic
import ModuleLowering.Proofs.Except
import ModuleLowering.Token.Scan

/-!
What the readers of lexemes can give. Each reader has a relation with one case for each kind of lexeme, and one lemma
that takes its results apart; what is true of all lexemes is proved by the cases.
-/

namespace ModuleLowering

open Text

namespace Lexeme

inductive ChunkReading (rest : List Char) : Bool → Lexeme → Prop
  | template {n} (h : chunkLength rest = some (n, .backquote)) : ChunkReading rest true ⟨.template, n, .stays⟩
  | tail {n} (h : chunkLength rest = some (n, .backquote)) : ChunkReading rest false ⟨.templateTail, n, .leaves⟩
  | head {n} (h : chunkLength rest = some (n, .substitution)) :
    ChunkReading rest true ⟨.templateHead, n, .opens .templateExpr⟩
  | middle {n} (h : chunkLength rest = some (n, .substitution)) :
    ChunkReading rest false ⟨.templateMiddle, n, .reenters⟩

inductive CodeReading (previous : Option Token) (inSubstitution : Bool) (start : Nat) :
    Char → List Char → Lexeme → Prop
  | string {quote rest n} (hquote : quote = '"' ∨ quote = '\'') (h : stringLength quote rest = some n) :
    CodeReading previous inSubstitution start quote rest ⟨.string, n, .stays⟩
  | chunk {c rest l} (head : Bool) (hhead : head = false → inSubstitution) (h : ChunkReading rest head l) :
    CodeReading previous inSubstitution start c rest l
  | number {c rest} (hc : c.isDigit ∨ c = '.') :
    CodeReading previous inSubstitution start c rest ⟨.number, numberLength (c :: rest) - 1, .stays⟩
  | privateName {rest n} (h : nameLength isIdentifierPart (start + 1) rest = .ok n) :
    CodeReading previous inSubstitution start '#' rest ⟨.privateIdentifier, n, .stays⟩
  | openBrace {rest} : CodeReading previous inSubstitution start '{' rest ⟨.openBrace, 0, .opensBrace⟩
  | openParen {rest} : CodeReading previous inSubstitution start '(' rest ⟨.openParen, 0, .opens .paren⟩
  | openBracket {rest} : CodeReading previous inSubstitution start '[' rest ⟨.openBracket, 0, .opens .bracket⟩
  | closeBrace {rest} : CodeReading previous inSubstitution start '}' rest ⟨.closeBrace, 0, .closes⟩
  | closeParen {rest} : CodeReading previous inSubstitution start ')' rest ⟨.closeParen, 0, .closes⟩
  | closeBracket {rest} : CodeReading previous inSubstitution start ']' rest ⟨.closeBracket, 0, .closes⟩
  | regex {rest n} (h : regexLength false rest = some n) :
    CodeReading previous inSubstitution start '/' rest ⟨.regex, n + flagsLength (rest.drop n), .stays⟩
  | tag {rest} (h : beginsElement rest) :
    CodeReading previous inSubstitution start '<' rest ⟨.less, 0, .beginsTag false⟩
  | word {c rest n} (h : nameLength isIdentifierPart start (c :: rest) = .ok (n + 1)) :
    CodeReading previous inSubstitution start c rest
      ⟨wordKind previous (String.ofList (c :: rest.take n)), n, .stays⟩
  | question {c rest n} (h : punctuator? (c :: rest) = some (n, .question)) :
    CodeReading previous inSubstitution start c rest ⟨.question, n - 1, .asks⟩
  | colon {c rest n} (h : punctuator? (c :: rest) = some (n, .colon)) :
    CodeReading previous inSubstitution start c rest ⟨.colon, n - 1, .answers⟩
  | punctuator {c rest n kind} (h : punctuator? (c :: rest) = some (n, kind)) :
    CodeReading previous inSubstitution start c rest ⟨kind, n - 1, .stays⟩

inductive TagReading (start : Nat) : Char → List Char → Lexeme → Prop
  | greater {rest} : TagReading start '>' rest ⟨.greater, 0, .endsTag⟩
  | slashGreater {rest} : TagReading start '/' ('>' :: rest) ⟨.slashGreater, 1, .endsEmptyTag⟩
  | openBrace {rest} : TagReading start '{' rest ⟨.openBrace, 0, .opens .jsxExpr⟩
  | equals {rest} : TagReading start '=' rest ⟨.equals, 0, .stays⟩
  | dot {rest} : TagReading start '.' rest ⟨.dot, 0, .stays⟩
  | colon {rest} : TagReading start ':' rest ⟨.colon, 0, .stays⟩
  | string {quote rest n} (hquote : quote = '"' ∨ quote = '\'') (h : rest.findIdx? (· == quote) = some n) :
    TagReading start quote rest ⟨.string, n + 1, .stays⟩
  | less {rest} : TagReading start '<' rest ⟨.less, 0, .beginsTag false⟩
  | name {c rest n} (hc : isIdentifierStart c) (h : nameLength isJsxNamePart start (c :: rest) = .ok n) :
    TagReading start c rest ⟨.identifier, n - 1, .stays⟩

inductive ChildReading : Char → List Char → Lexeme → Prop
  | lessSlash {rest} : ChildReading '<' ('/' :: rest) ⟨.lessSlash, 1, .beginsTag true⟩
  | less {rest} : ChildReading '<' rest ⟨.less, 0, .beginsTag false⟩
  | openBrace {rest} : ChildReading '{' rest ⟨.openBrace, 0, .opens .jsxExpr⟩
  | text {c rest} : ChildReading c rest ⟨.jsxText, (rest.takeWhile fun d => d != '<' && d != '{').length, .stays⟩

variable {previous : Option Token} {inSubstitution head : Bool} {start n : Nat} {c : Char} {rest text : List Char}
  {kind : Kind} {l : Lexeme}

theorem orReject_eq_ok {α : Type} {read : Option α} {fault : LexicalFault} {a : α}
    (h : orReject read fault start = .ok a) : read = some a := by
  cases read with
  | none => cases h
  | some => cases h; rfl

theorem wordKind_cases (previous : Option Token) (word : String) :
    wordKind previous word = .identifier ∨
      ∃ k, Keyword.ofSpelling? word = some k ∧ wordKind previous word = .keyword k := by
  unfold wordKind
  split
  · exact .inl rfl
  · cases Keyword.ofSpelling? word with
    | none => exact .inl rfl
    | some k => exact .inr ⟨k, rfl, rfl⟩

theorem punctuator?_cases (h : punctuator? text = some (n, kind)) :
    (kind = .question ∧ n = 1 ∧ text.head? = some '?') ∨
      ∃ spelling, (spelling, kind) ∈ punctuators ∧ n = spelling.toList.length ∧ spelling.toList <+: text := by
  have hall : ∀ p ∈ punctuators, p.2 = .questionDot → p.1 = "?." := by decide
  unfold punctuator? at h
  split at h
  · cases h
  · rename_i spelling kind' hfind
    have hmem := List.mem_of_find?_eq_some hfind
    have hfits : spelling.toList <+: text := by simpa using List.find?_some hfind
    split at h
    · rename_i hquestion
      rw [Bool.and_eq_true, decide_eq_true_eq] at hquestion
      have hspelling : spelling = "?." := hall _ hmem hquestion.1
      obtain ⟨rest, rfl⟩ := hspelling ▸ hfits
      cases h
      exact .inl ⟨rfl, rfl, rfl⟩
    · cases h
      exact .inr ⟨spelling, hmem, String.length_toList.symm, hfits⟩

theorem of_punctuator? {P : Kind → Prop} (hall : ∀ p ∈ punctuators, P p.2) (h : punctuator? text = some (n, kind)) :
    P kind := by
  rcases punctuator?_cases h with ⟨rfl, _⟩ | ⟨spelling, hmem, _⟩
  · exact hall ("?", .question) (by decide)
  · exact hall _ hmem

theorem chunkReading_of_ofChunk (h : ofChunk head start rest = .ok l) : ChunkReading rest head l := by
  unfold ofChunk at h
  split at h
  · cases h
  · cases head <;> cases h
    · exact .tail ‹_›
    · exact .template ‹_›
  · cases head <;> cases h
    · exact .middle ‹_›
    · exact .head ‹_›

theorem codeReading_of_ofWord (h : ofWord previous start c rest = .ok l) :
    CodeReading previous inSubstitution start c rest l := by
  obtain ⟨n, hn, h⟩ := bind_eq_ok_iff.1 h
  cases n with
  | zero => cases h
  | succ n =>
    cases h
    exact .word hn

theorem codeReading_of_ofPunctuator (h : ofPunctuator start c rest = .ok l) :
    CodeReading previous inSubstitution start c rest l := by
  unfold ofPunctuator at h
  split at h
  · cases h
  · rename_i n kind hp
    cases h
    split
    · rename_i hk
      subst hk
      exact .question hp
    · split
      · rename_i hk
        subst hk
        exact .colon hp
      · exact .punctuator hp

theorem codeReading_of_ofCode (h : ofCode previous inSubstitution start c rest = .ok l) :
    CodeReading previous inSubstitution start c rest l := by
  unfold ofCode at h
  apply of_ite_eq_ok h <;> intro hc h
  · obtain ⟨n, hn, h⟩ := bind_eq_ok_iff.1 h
    cases h
    rw [Bool.or_eq_true, decide_eq_true_eq, decide_eq_true_eq] at hc
    exact .string hc (orReject_eq_ok hn)
  apply of_ite_eq_ok h <;> intro _ h
  · exact .chunk true nofun (chunkReading_of_ofChunk h)
  apply of_ite_eq_ok h <;> intro hc h
  · cases h
    rw [Bool.or_eq_true, Bool.and_eq_true, decide_eq_true_eq] at hc
    exact .number (hc.imp_right And.left)
  apply of_ite_eq_ok h <;> intro hc h
  · obtain ⟨n, hn, h⟩ := bind_eq_ok_iff.1 h
    split at h <;> cases h
    subst hc
    exact .privateName hn
  apply of_ite_eq_ok h <;> intro hc h
  · cases h
    subst hc
    exact .openBrace
  apply of_ite_eq_ok h <;> intro hc h
  · cases h
    subst hc
    exact .openParen
  apply of_ite_eq_ok h <;> intro hc h
  · cases h
    subst hc
    exact .openBracket
  apply of_ite_eq_ok h <;> intro hc h
  · apply of_ite_eq_ok h <;> intro hin h
    · exact .chunk false (fun _ => hin) (chunkReading_of_ofChunk h)
    · cases h
      subst hc
      exact .closeBrace
  apply of_ite_eq_ok h <;> intro hc h
  · cases h
    subst hc
    exact .closeParen
  apply of_ite_eq_ok h <;> intro hc h
  · cases h
    subst hc
    exact .closeBracket
  apply of_ite_eq_ok h <;> intro hc h
  · obtain ⟨n, hn, h⟩ := bind_eq_ok_iff.1 h
    cases h
    rw [Bool.and_eq_true, decide_eq_true_eq] at hc
    obtain ⟨rfl, _⟩ := hc
    exact .regex (orReject_eq_ok hn)
  apply of_ite_eq_ok h <;> intro hc h
  · cases h
    rw [Bool.and_eq_true, Bool.and_eq_true, decide_eq_true_eq] at hc
    obtain ⟨⟨rfl, _⟩, hbegins⟩ := hc
    exact .tag hbegins
  apply of_ite_eq_ok h <;> intro _ h
  · exact codeReading_of_ofWord h
  · exact codeReading_of_ofPunctuator h

theorem tagReading_of_ofTag (h : ofTag start c rest = .ok l) : TagReading start c rest l := by
  unfold ofTag at h
  apply of_ite_eq_ok h <;> intro hc h
  · cases h
    subst hc
    exact .greater
  apply of_ite_eq_ok h <;> intro hc h
  · cases h
    rw [Bool.and_eq_true, decide_eq_true_eq, decide_eq_true_eq] at hc
    obtain ⟨rfl, hhead⟩ := hc
    obtain ⟨tail, rfl⟩ := List.head?_eq_some_iff.1 hhead
    exact .slashGreater
  apply of_ite_eq_ok h <;> intro hc h
  · cases h
    subst hc
    exact .openBrace
  apply of_ite_eq_ok h <;> intro hc h
  · cases h
    subst hc
    exact .equals
  apply of_ite_eq_ok h <;> intro hc h
  · cases h
    subst hc
    exact .dot
  apply of_ite_eq_ok h <;> intro hc h
  · cases h
    subst hc
    exact .colon
  apply of_ite_eq_ok h <;> intro hc h
  · obtain ⟨n, hn, h⟩ := bind_eq_ok_iff.1 h
    cases h
    rw [Bool.or_eq_true, decide_eq_true_eq, decide_eq_true_eq] at hc
    exact .string hc (orReject_eq_ok hn)
  apply of_ite_eq_ok h <;> intro hc h
  · cases h
    subst hc
    exact .less
  apply of_ite_eq_ok h <;> intro hc h
  · obtain ⟨n, hn, h⟩ := bind_eq_ok_iff.1 h
    cases h
    exact .name hc hn
  · cases h

theorem childReading (c : Char) (rest : List Char) : ChildReading c rest (ofChild c rest) := by
  unfold ofChild
  split
  · rename_i hc
    subst hc
    split
    · rename_i hslash
      obtain ⟨tail, rfl⟩ := List.head?_eq_some_iff.1 hslash
      exact .lessSlash
    · exact .less
  · split
    · rename_i hc
      subst hc
      exact .openBrace
    · exact .text

end Lexeme

def inMarkup (fs : List Frame) : Bool := fs.head?.any (!·.isGroup)

theorem inMarkup_cases {fs : List Frame} (h : inMarkup fs) :
    (∃ closing gs, fs = .tag closing :: gs) ∨ ∃ gs, fs = .children :: gs := by
  obtain ⟨f, hf, hgroup⟩ := (Option.any_eq_true _ _).1 h
  obtain ⟨gs, rfl⟩ := List.head?_eq_some_iff.1 hf
  cases f with
  | group => cases hgroup
  | tag closing => exact .inl ⟨closing, gs, rfl⟩
  | children => exact .inr ⟨gs, rfl⟩

/-- The reader that serves where these frames are open, and what it gives. -/
inductive Scanner.Reads (s : Scanner) (c : Char) (rest : List Char) (l : Lexeme) : Prop
  | code (hout : inMarkup s.nesting.frames = false)
      (h : Lexeme.CodeReading s.tokens.back? (s.nesting.context = .templateExpr) s.offset c rest l)
  | tag {closing fs} (hframes : s.nesting.frames = .tag closing :: fs) (h : Lexeme.TagReading s.offset c rest l)
  | child {fs} (hframes : s.nesting.frames = .children :: fs) (h : Lexeme.ChildReading c rest l)

theorem Scanner.reads_of_lexeme {s : Scanner} {c : Char} {rest : List Char} {l : Lexeme}
    (h : s.lexeme c rest = .ok l) : s.Reads c rest l := by
  unfold lexeme at h
  split at h
  · rename_i hframes
    exact .tag hframes (Lexeme.tagReading_of_ofTag h)
  · rename_i hframes
    cases h
    exact .child hframes (Lexeme.childReading c rest)
  · rename_i htag hchildren
    refine .code ?_ (Lexeme.codeReading_of_ofCode h)
    rw [← Bool.not_eq_true]
    intro hin
    rcases inMarkup_cases hin with ⟨closing, fs, hframes⟩ | ⟨fs, hframes⟩
    · exact htag closing fs hframes
    · exact hchildren fs hframes

theorem Scanner.Reads.code_of_not_inMarkup {s : Scanner} {c : Char} {rest : List Char} {l : Lexeme}
    (h : s.Reads c rest l) (hout : inMarkup s.nesting.frames = false) :
    Lexeme.CodeReading s.tokens.back? (s.nesting.context = .templateExpr) s.offset c rest l := by
  cases h with
  | code _ h => exact h
  | tag hframes | child hframes =>
    rw [hframes] at hout
    cases hout

end ModuleLowering
