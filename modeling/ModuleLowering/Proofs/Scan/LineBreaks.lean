import ModuleLowering.Proofs.Scan.History
import ModuleLowering.Proofs.Scan.Lead
import ModuleLowering.Proofs.Text.Lines

namespace ModuleLowering

open Text

theorem isLineBreak_of_isBlank {c : Char} (h : isBlank c) : isLineBreak c = false := by
  rw [← Bool.not_eq_true]
  intro hbreak
  simp only [isLineBreak, Bool.or_eq_true, beq_iff_eq] at hbreak
  obtain ((rfl | rfl) | rfl) | rfl := hbreak <;> revert h <;> decide

theorem ne_slash_of_isBlank {c : Char} (h : isBlank c) : c ≠ '/' := by
  rintro rfl
  revert h
  decide

theorem ne_slash_of_isLineBreak {c : Char} (h : isLineBreak c) : c ≠ '/' := by
  rintro rfl
  revert h
  decide

namespace Gap

theorem commentLength_append {body : List Char} (h : ¬ ['*', '/'] <:+: body) (rest : List Char) :
    commentLength (body ++ '*' :: '/' :: rest) = some (body.length + 2) := by
  induction body with
  | nil => rfl
  | cons c body ih =>
    have hbody : ¬ ['*', '/'] <:+: body := fun hpart => h (List.infix_cons hpart)
    rw [List.cons_append, commentLength, ih hbody]
    · rfl
    · rintro rest' rfl heq
      cases body with
      | nil => cases heq
      | cons d body =>
        obtain ⟨rfl, _⟩ := List.cons.inj heq
        exact h ⟨[], body, rfl⟩

theorem extend_of_not_comment {c : Char} {rest : List Char}
    (h : ¬ (c = '/' ∧ (rest.head? = some '/' ∨ rest.head? = some '*'))) (gap : Gap) :
    gap.extend (c :: rest) =
      if isLineBreak c then extend ⟨gap.length + 1, true⟩ rest
      else if isBlank c then extend { gap with length := gap.length + 1 } rest
      else .ok gap := by
  rw [extend]
  · rintro _ rfl rfl
    exact h ⟨rfl, .inl rfl⟩
  · rintro _ rfl rfl
    exact h ⟨rfl, .inr rfl⟩

theorem extend_of_ne_slash {c : Char} (hc : c ≠ '/') (gap : Gap) (rest : List Char) :
    gap.extend (c :: rest) =
      if isLineBreak c then extend ⟨gap.length + 1, true⟩ rest
      else if isBlank c then extend { gap with length := gap.length + 1 } rest
      else .ok gap := extend_of_not_comment (fun h => hc h.1) gap

theorem extend_lineComment {body cs : List Char} (hbody : ∀ c ∈ body, isNewline c = false) {c : Char}
    (hhead : cs.head? = some c) (hc : isNewline c) (gap : Gap) :
    gap.extend ('/' :: '/' :: body ++ cs) = extend { gap with length := gap.length + 2 + body.length } cs := by
  have htake : (body ++ cs).takeWhile (!isNewline ·) = body := by
    rw [List.takeWhile_append_of_pos (by simpa using hbody)]
    cases cs with
    | nil => cases hhead
    | cons d ds =>
      cases hhead
      simp [hc]
  rw [List.cons_append, List.cons_append, extend, htake, List.drop_left]

theorem extend_blockComment {body : List Char} (hbody : ¬ ['*', '/'] <:+: body) (cs : List Char) (gap : Gap) :
    gap.extend ('/' :: '*' :: body ++ '*' :: '/' :: cs) =
      extend ⟨gap.length + 2 + (body.length + 2), gap.lineBreak || body.any isNewline⟩ cs := by
  have hsplit : body ++ '*' :: '/' :: cs = (body ++ ['*', '/']) ++ cs := by simp
  have hlength : body.length + 2 = (body ++ ['*', '/']).length := by simp
  have hany : (body ++ ['*', '/']).any isNewline = body.any isNewline := by simp [isNewline]
  rw [List.cons_append, List.cons_append, extend, commentLength_append hbody]
  dsimp only
  rw [hsplit, hlength, List.take_left, List.drop_left, hany]

end Gap

namespace Trivia

variable {final : Prop}

theorem tail {c : Char} {cs : List Char} (hc : c ≠ '/') (h : Trivia final (c :: cs)) : Trivia final cs := by
  cases h with
  | blank _ h => exact h
  | lineBreak _ h => exact h
  | lineComment | blockComment => exact absurd rfl hc

theorem after_comment {body cs : List Char} (hbody : ¬ ['*', '/'] <:+: body)
    (h : Trivia final ('/' :: '*' :: body ++ '*' :: '/' :: cs)) : Trivia final cs := by
  generalize htext : '/' :: '*' :: body ++ '*' :: '/' :: cs = text at h
  cases h with
  | nil => cases htext
  | blank hc =>
    obtain ⟨rfl, _⟩ := List.cons.inj htext
    exact absurd hc (by decide)
  | lineBreak hc =>
    obtain ⟨rfl, _⟩ := List.cons.inj htext
    exact absurd hc (by decide)
  | lineComment => cases htext
  | @blockComment body' cs' hbody' h =>
    have heq : body ++ '*' :: '/' :: cs = body' ++ '*' :: '/' :: cs' := by simpa using htext
    have hlength := congrArg Gap.commentLength heq
    rw [Gap.commentLength_append hbody, Gap.commentLength_append hbody'] at hlength
    have hsame : body.length = body'.length := by simpa using hlength
    obtain ⟨_, hrest⟩ := List.append_inj heq hsame
    cases hrest
    exact h

theorem not_open {body : List Char} (hbody : ¬ ['*', '/'] <:+: body) : ¬ Trivia final ('/' :: '*' :: body) := by
  intro h
  generalize htext : '/' :: '*' :: body = text at h
  cases h with
  | nil => cases htext
  | blank hc =>
    obtain ⟨rfl, _⟩ := List.cons.inj htext
    exact absurd hc (by decide)
  | lineBreak hc =>
    obtain ⟨rfl, _⟩ := List.cons.inj htext
    exact absurd hc (by decide)
  | lineComment => cases htext
  | @blockComment body' cs' =>
    obtain ⟨_, heq⟩ := List.cons.inj htext
    obtain ⟨_, rfl⟩ := List.cons.inj heq
    exact hbody ⟨body', cs', by simp⟩

end Trivia

/-- The line breaks that the scan notices: line feeds and carriage returns everywhere, others outside of comments. -/
def BreaksLine (gap : List Char) : Prop :=
  ∃ before c after, gap = before ++ c :: after ∧ isLineBreak c ∧ (isNewline c ∨ Trivia False before)

namespace BreaksLine

theorem not_nil : ¬ BreaksLine [] := by
  rintro ⟨before, c, after, h, _⟩
  simp at h

theorem head {c : Char} (hc : isLineBreak c) (cs : List Char) : BreaksLine (c :: cs) := ⟨[], c, cs, rfl, hc, .inr .nil⟩

theorem of_mem {c : Char} {gap : List Char} (h : c ∈ gap) (hc : isNewline c) : BreaksLine gap := by
  obtain ⟨before, after, rfl⟩ := List.append_of_mem h
  exact ⟨before, c, after, rfl, isLineBreak_of_isNewline hc, .inl hc⟩

theorem exists_mem {gap : List Char} (h : BreaksLine gap) : ∃ c ∈ gap, isLineBreak c := by
  obtain ⟨before, c, after, rfl, hc, _⟩ := h
  exact ⟨c, by simp, hc⟩

theorem cons {c : Char} (hc : isBlank c ∨ isLineBreak c) {cs : List Char} (h : BreaksLine cs) :
    BreaksLine (c :: cs) := by
  obtain ⟨before, d, after, rfl, hd, hplace⟩ := h
  refine ⟨c :: before, d, after, rfl, hd, hplace.imp_right fun hbefore => ?_⟩
  rcases hc with hc | hc
  · exact .blank hc hbefore
  · exact .lineBreak hc hbefore

theorem cons_blank_iff {c : Char} (hc : isBlank c) {cs : List Char} : BreaksLine (c :: cs) ↔ BreaksLine cs := by
  refine ⟨?_, cons (.inl hc)⟩
  rintro ⟨before, d, after, heq, hd, hplace⟩
  rcases List.cons_eq_append_iff.1 heq with ⟨rfl, heq⟩ | ⟨before, rfl, rfl⟩
  · cases heq
    rw [isLineBreak_of_isBlank hc] at hd
    cases hd
  · exact ⟨before, d, after, rfl, hd, hplace.imp_right fun h => h.tail (ne_slash_of_isBlank hc)⟩

theorem comment {body cs : List Char} (hbody : ¬ ['*', '/'] <:+: body) (h : BreaksLine cs) :
    BreaksLine ('/' :: '*' :: body ++ '*' :: '/' :: cs) := by
  obtain ⟨before, d, after, rfl, hd, hplace⟩ := h
  exact ⟨'/' :: '*' :: body ++ '*' :: '/' :: before, d, after, by simp, hd,
    hplace.imp_right fun h => .blockComment hbody h⟩

theorem comment_iff {body cs : List Char} (hbody : ¬ ['*', '/'] <:+: body) :
    BreaksLine ('/' :: '*' :: body ++ '*' :: '/' :: cs) ↔ body.any isNewline ∨ BreaksLine cs := by
  constructor
  · rintro ⟨before, d, after, heq, hd, hplace⟩
    -- The two characters that open the comment are no line breaks.
    match before, heq with
    | [], heq =>
      cases heq
      exact absurd hd (by decide)
    | [_], heq =>
      cases heq
      exact absurd hd (by decide)
    | _ :: _ :: before, heq =>
      simp only [List.cons_append, List.cons.injEq] at heq
      obtain ⟨rfl, rfl, heq⟩ := heq
      -- Either the break stands behind the body of the comment, or it is in the body.
      rcases List.append_eq_append_iff.1 heq with ⟨rest, hbefore, hrest⟩ | ⟨rest, hbody', hrest⟩
      · clear heq
        match rest, hrest with
        | [], hrest | [_], hrest =>
          cases hrest
          exact absurd hd (by decide)
        | _ :: _ :: rest, hrest =>
          cases hrest
          subst hbefore
          exact .inr ⟨rest, d, after, rfl, hd, hplace.imp_right fun h => h.after_comment hbody⟩
      · clear heq
        cases rest with
        | nil =>
          cases hrest
          exact absurd hd (by decide)
        | cons e rest =>
          cases hrest
          subst hbody'
          rcases hplace with hnewline | hopen
          · exact .inl (List.any_eq_true.2 ⟨d, by simp, hnewline⟩)
          · exact absurd hopen (Trivia.not_open fun hpart => hbody (hpart.trans (List.prefix_append _ _).isInfix))
  · rintro (hany | h)
    · obtain ⟨c, hc, hnewline⟩ := List.any_eq_true.1 hany
      exact of_mem (by simp [hc]) hnewline
    · exact comment hbody h

end BreaksLine

theorem Trivia.breaksLine_or {gap : List Char} (h : Trivia False gap) {c : Char} (hc : c ∈ gap)
    (hbreak : isLineBreak c) :
    BreaksLine gap ∨ ∃ before body after, gap = before ++ ('/' :: '*' :: body ++ '*' :: '/' :: after) ∧
      Trivia False before ∧ ¬ ['*', '/'] <:+: body ∧ c ∈ body ∧ isNewline c = false := by
  induction h with
  | nil => cases hc
  | @blank d cs hd _ ih =>
    rcases List.mem_cons.1 hc with rfl | hc
    · rw [isLineBreak_of_isBlank hd] at hbreak
      cases hbreak
    · refine (ih hc).imp (.cons (.inl hd)) ?_
      rintro ⟨before, body, after, rfl, hbefore, hrest⟩
      exact ⟨d :: before, body, after, rfl, .blank hd hbefore, hrest⟩
  | lineBreak hd _ _ => exact .inl (.head hd _)
  | lineComment _ hend _ _ =>
    obtain ⟨_, hnot⟩ | ⟨d, hhead, hd⟩ := hend
    · exact hnot.elim
    · exact .inl (.of_mem (List.mem_append_right _ (List.mem_of_head? hhead)) hd)
  | @blockComment body cs hbody _ ih =>
    simp only [List.mem_append, List.mem_cons] at hc
    rcases hc with (rfl | rfl | hc) | rfl | rfl | hc
    · exact absurd hbreak (by decide)
    · exact absurd hbreak (by decide)
    · cases hnewline : isNewline c with
      | true => exact .inl (.of_mem (by simp [hc]) hnewline)
      | false => exact .inr ⟨[], body, cs, rfl, .nil, hbody, hc, rfl⟩
    · exact absurd hbreak (by decide)
    · exact absurd hbreak (by decide)
    · refine (ih hc).imp (.comment hbody) ?_
      rintro ⟨before, body', after, rfl, hbefore, hrest⟩
      exact ⟨'/' :: '*' :: body ++ '*' :: '/' :: before, body', after, by simp, .blockComment hbody hbefore, hrest⟩

namespace Gap

theorem extend_append {taken : List Char} (h : Trivia False taken) : ∃ breaks : Bool, (breaks ↔ BreaksLine taken) ∧
    ∀ (gap : Gap) rest, gap.extend (taken ++ rest) =
      extend ⟨gap.length + taken.length, gap.lineBreak || breaks⟩ rest := by
  induction h with
  | nil => exact ⟨false, by simpa using BreaksLine.not_nil, fun gap rest => by simp⟩
  | @blank c cs hc _ ih =>
    obtain ⟨breaks, hbreaks, hextend⟩ := ih
    refine ⟨breaks, hbreaks.trans (BreaksLine.cons_blank_iff hc).symm, fun gap rest => ?_⟩
    rw [List.cons_append, extend_of_ne_slash (ne_slash_of_isBlank hc), if_neg (by simp [isLineBreak_of_isBlank hc]),
      if_pos hc, hextend, List.length_cons, Nat.add_assoc, Nat.add_comm 1]
  | @lineBreak c cs hc _ ih =>
    obtain ⟨breaks, _, hextend⟩ := ih
    refine ⟨true, by simpa using BreaksLine.head hc cs, fun gap rest => ?_⟩
    rw [List.cons_append, extend_of_ne_slash (ne_slash_of_isLineBreak hc), if_pos hc, hextend, List.length_cons,
      Nat.add_assoc, Nat.add_comm 1, Bool.true_or, Bool.or_true]
  | @lineComment body cs hbody hend _ ih =>
    obtain ⟨breaks, hbreaks, hextend⟩ := ih
    obtain ⟨_, hnot⟩ | ⟨c, hhead, hc⟩ := hend
    · exact hnot.elim
    · have hmem : c ∈ cs := List.mem_of_head? hhead
      -- The break that ends the comment is noticed in the rest of the gap.
      have hrest := BreaksLine.of_mem hmem hc
      have hall : BreaksLine ('/' :: '/' :: body ++ cs) := BreaksLine.of_mem (List.mem_append_right _ hmem) hc
      refine ⟨breaks, iff_of_true (hbreaks.2 hrest) hall, fun gap rest => ?_⟩
      have hhead' : (cs ++ rest).head? = some c := by
        cases cs with
        | nil => cases hhead
        | cons => exact hhead
      rw [List.append_assoc, extend_lineComment hbody hhead' hc, hextend]
      congr 2
      simp only [List.length_append, List.length_cons]
      omega
  | @blockComment body cs hbody _ ih =>
    obtain ⟨breaks, hbreaks, hextend⟩ := ih
    refine ⟨body.any isNewline || breaks, ?_, fun gap rest => ?_⟩
    · rw [BreaksLine.comment_iff hbody, Bool.or_eq_true, hbreaks]
    · have htext : '/' :: '*' :: body ++ '*' :: '/' :: cs ++ rest =
          '/' :: '*' :: body ++ '*' :: '/' :: (cs ++ rest) := by simp
      rw [htext, extend_blockComment hbody, hextend, Bool.or_assoc]
      congr 2
      simp only [List.length_append, List.length_cons]
      omega

theorem eq_of_extend {gap g : Gap} {text : List Char} (h : gap.extend text = .ok g) (hlength : g.length = gap.length) :
    g = gap := by
  unfold extend at h
  split at h
  · have := le_length_of_extend h
    dsimp only at this
    omega
  · split at h
    · cases h
    · have := le_length_of_extend h
      dsimp only at this
      omega
  · split at h
    · have := le_length_of_extend h
      dsimp only at this
      omega
    · split at h
      · have := le_length_of_extend h
        dsimp only at this
        omega
      · cases h
        rfl
  · cases h
    rfl

theorem of_read {text : List Char} {gap : Gap} (h : read text = .ok gap) (hrest : text.drop gap.length ≠ []) :
    Trivia False (text.take gap.length) ∧ (gap.lineBreak ↔ BreaksLine (text.take gap.length)) ∧
      ∀ rest, read (text.take gap.length ++ rest) = gap.extend rest := by
  obtain ⟨taken, rest, rfl, hlength, htrivia, _⟩ := trivia_of_extend h
  have htaken : gap.length = taken.length := hlength.trans (Nat.zero_add _)
  rw [htaken, List.drop_left] at hrest
  obtain ⟨breaks, hbreaks, hextend⟩ := extend_append (htrivia.imp hrest)
  have hread (rest : List Char) : read (taken ++ rest) = extend ⟨taken.length, breaks⟩ rest := by
    rw [read, hextend]
    simp [empty]
  have hgap : gap = ⟨taken.length, breaks⟩ := eq_of_extend (hread rest ▸ h) htaken
  rw [htaken, List.take_left, hgap]
  exact ⟨htrivia.imp hrest, hbreaks, hread⟩

end Gap

theorem Scanner.gap_cases {s : Scanner} {gap : Gap} (h : s.gap = .ok gap) :
    ((∃ frames, s.nesting.frames = .children :: frames) ∧ gap = .empty) ∨
      ((∀ frames, s.nesting.frames ≠ .children :: frames) ∧ Gap.read s.rest = .ok gap) := by
  unfold Scanner.gap at h
  split at h
  · rename_i frames hframes
    cases h
    exact .inl ⟨⟨frames, hframes⟩, rfl⟩
  · rename_i hframes
    split at h
    · cases h
      exact .inr ⟨hframes, by assumption⟩
    · cases h

theorem Scanner.breaksLine_of_gap {s : Scanner} {gap : Gap} (h : s.gap = .ok gap)
    (hrest : (s.advance gap.length).rest ≠ []) : gap.lineBreak ↔ BreaksLine (s.rest.take gap.length) := by
  rcases gap_cases h with ⟨_, rfl⟩ | ⟨_, hread⟩
  · simpa [Gap.empty] using BreaksLine.not_nil
  · exact (Gap.of_read hread hrest).2.1

theorem Scanner.exists_newline {source : List Char} {gap : Gap} (h : (start source).gap = .ok gap) {lead : List Char}
    (hlead : Hashbang lead (start source).rest) (hrest : ((start source).advance gap.length).rest ≠ []) :
    lead = [] ∨ ∃ c ∈ (start source).rest.take gap.length, isNewline c := by
  generalize hs : start source = s at *
  have hframes : s.nesting.frames = [] := by
    rw [← hs]
    rfl
  cases hlead with
  | none => exact .inl rfl
  | @line line _ hline hend =>
    rcases hend with hnil | hfeed
    · rw [advance, hnil] at hrest
      simp at hrest
    · cases htext : s.rest with
      | nil => simp [htext] at hfeed
      | cons c cs =>
        obtain rfl : c = '\n' := by simpa [htext] using hfeed
        have hpos : 0 < gap.length := by
          rcases gap_cases h with ⟨⟨frames, hchildren⟩, _⟩ | ⟨_, hread⟩
          · rw [hframes] at hchildren
            cases hchildren
          · exact Gap.length_pos_of_read (htext ▸ hread)
        obtain ⟨n, hn⟩ := Nat.exists_eq_succ_of_ne_zero (Nat.ne_of_gt hpos)
        exact .inr ⟨'\n', by simp [hn], rfl⟩

theorem stopBefore_record (tokens : Array Token) (t : Token) (stop : Nat) {i : Nat} (hi : i ≤ tokens.size) :
    (Stream.mk (Scanner.record tokens t) stop).stopBefore i = (Stream.mk tokens stop).stopBefore i :=
  congrArg (Option.getD · 0) (map_before?_record Token.stop (fun _ _ => rfl) tokens t stop hi)

theorem stopBefore_size (tokens : Array Token) (stop : Nat) :
    (Stream.mk tokens stop).stopBefore tokens.size = (tokens.back?.map (·.stop)).getD 0 := by
  rw [Stream.stopBefore, before?_size]

structure Tells (flag : Bool) (gap : List Char) : Prop where
  breaks : flag ↔ BreaksLine gap
  trivia : flag = false → Trivia False gap

theorem Tells.of_trivia {flag : Bool} {gap : List Char} (h : flag ↔ BreaksLine gap) (htrivia : Trivia False gap) :
    Tells flag gap := ⟨h, fun _ => htrivia⟩

structure Flagged (source : List Char) (s : Scanner) : Prop where
  placed : s.PlacedIn source
  first : s.tokens = #[] → s = .start source
  last : ∀ t, s.tokens.back? = some t → t.stop = s.offset
  flags : ∀ (i : Nat) (t : Token), s.tokens[i]? = some t →
    Tells t.lineBreak (Span.text ⟨(Stream.mk s.tokens 0).stopBefore i, t.start⟩ source)

namespace Flagged

theorem start (source : List Char) : Flagged source (.start source) where
  placed := Scanner.placedIn_start source
  first _ := rfl
  last := by simp [Scanner.start]
  flags := by simp [Scanner.start]

variable {source : List Char} {s : Scanner} (h : Flagged source s)
include h

theorem tells_of_gap {gap : Gap} (hgap : s.gap = .ok gap) (hrest : (s.advance gap.length).rest ≠ []) :
    Tells gap.lineBreak (Span.text
      ⟨(Stream.mk s.tokens 0).stopBefore s.tokens.size, (s.advance gap.length).offset⟩ source) := by
  have hbreaks := Scanner.breaksLine_of_gap hgap hrest
  have htrivia := (Scanner.trivia_of_gap hgap).imp hrest
  rw [stopBefore_size]
  cases hback : s.tokens.back? with
  | none =>
    obtain rfl := h.first (by simpa using hback)
    obtain ⟨lead, hsource, hoffset, hlead⟩ := hashbang_start source
    have htext : Span.text ⟨0, ((Scanner.start source).advance gap.length).offset⟩ source =
        lead ++ (Scanner.start source).rest.take gap.length := by
      have hsplit : source = [] ++ (lead ++ (Scanner.start source).rest.take gap.length) ++
          (Scanner.start source).rest.drop gap.length := by
        rw [List.nil_append, List.append_assoc, List.take_append_drop]
        exact hsource
      refine text_of_split hsplit rfl ?_
      rw [byteLength_append, hoffset]
      exact Nat.zero_add _
    rw [Option.map_none, Option.getD_none, htext]
    rcases Scanner.exists_newline hgap hlead hrest with rfl | ⟨c, hmem, hc⟩
    · exact .of_trivia hbreaks htrivia
    · have hflag := hbreaks.2 (.of_mem hmem hc)
      exact ⟨iff_of_true hflag (.of_mem (List.mem_append_right _ hmem) hc), fun hnot => by simp [hflag] at hnot⟩
  | some t =>
    obtain ⟨read, hsource, hoffset⟩ := h.placed.split
    have htext : Span.text ⟨s.offset, (s.advance gap.length).offset⟩ source = s.rest.take gap.length := by
      have hsplit : source = read ++ s.rest.take gap.length ++ s.rest.drop gap.length := by
        rw [List.append_assoc, List.take_append_drop]
        exact hsource
      exact text_of_split hsplit hoffset rfl
    rw [Option.map_some, Option.getD_some, h.last t hback, htext]
    exact .of_trivia hbreaks htrivia

theorem step {t : Scanner} (hstep : s.step = .ok (t, true)) : Flagged source t := by
  have hplaced := h.placed.step hstep
  obtain ⟨gap, hgap, ⟨hmore, _⟩ | ⟨_, c, rest, l, p, hrest, _, _, rfl⟩⟩ := Scanner.step_cases hstep
  · cases hmore
  · obtain ⟨w, hw⟩ : ∃ w, w = (s.advance gap.length).token gap.lineBreak c rest l p := ⟨_, rfl⟩
    have htokens : ((s.advance gap.length).push gap.lineBreak c rest l p).tokens = Scanner.record s.tokens w :=
      hw ▸ rfl
    refine ⟨hplaced, fun hnil => ?_, fun t ht => ?_, fun i t ht => ?_⟩
    · rw [htokens] at hnil
      have := Bracketed.size_record s.tokens w
      simp [hnil] at this
    · rw [htokens, Bracketed.back?_record] at ht
      cases ht
      subst hw
      simp [Scanner.token, Scanner.push, Token.stop, utf8ByteSize_ofList]
    · have hlt := lt_size_of_getElem? ht
      rw [htokens, Bracketed.size_record] at hlt
      rw [htokens] at ht ⊢
      rw [stopBefore_record _ _ _ (Nat.le_of_lt_succ hlt)]
      by_cases hi : i = s.tokens.size
      · subst hi
        rw [getElem?_record, if_pos rfl] at ht
        cases ht
        subst hw
        exact h.tells_of_gap hgap (by simp [hrest])
      · obtain ⟨o, ho, hto⟩ := exists_of_getElem?_record ht hi
        rw [hto]
        exact h.flags i o ho

end Flagged

namespace Stream

variable {source : List Char} {s : Stream}

theorem tells_of_read (hs : Stream.read source = .ok s) {i : Nat} {t : Token} (ht : s.tokens[i]? = some t) :
    Tells t.lineBreak (Span.text ⟨s.stopBefore i, t.start⟩ source) := by
  obtain ⟨u, hu, _, rfl⟩ := Stream.read_eq_ok hs
  obtain ⟨n, v, hsteps, ⟨_, _, hrun⟩ | ⟨w, hw, hrun⟩⟩ := (Scanner.start source).exists_steps
  · rw [hu] at hrun
    cases hrun
  · rw [hu] at hrun
    cases hrun
    have hflagged := hsteps.induction (fun _ _ h => Flagged.step h) (Flagged.start source)
    rw [(Scanner.step_end hw).1] at ht ⊢
    exact hflagged.flags i t ht

/-- The flag of a token tells of every line feed and carriage return between it and the token before it, and of the
other line breaks outside of comments. So it tells whether there is a line break at all, unless one of the others
stands in a block comment. -/
theorem line_breaks_flagged (hs : Stream.read source = .ok s) {i : Nat} {t : Token} (ht : s.tokens[i]? = some t) :
    let gap := Span.text ⟨s.stopBefore i, t.start⟩ source
    (t.lineBreak ↔ BreaksLine gap) ∧ (t.lineBreak → ∃ c ∈ gap, isLineBreak c) ∧
    ((∀ before body after, gap = before ++ ('/' :: '*' :: body ++ '*' :: '/' :: after) → Trivia False before →
        ¬ ['*', '/'] <:+: body → ∀ c ∈ body, isLineBreak c → isNewline c) →
      (t.lineBreak ↔ ∃ c ∈ gap, isLineBreak c)) := by
  intro gap
  have htells : Tells t.lineBreak gap := tells_of_read hs ht
  have hsound (hflag : t.lineBreak) : ∃ c ∈ gap, isLineBreak c := (htells.breaks.1 hflag).exists_mem
  refine ⟨htells.breaks, hsound, fun hcomments => ⟨hsound, ?_⟩⟩
  rintro ⟨c, hc, hbreak⟩
  by_contra hflag
  rcases (htells.trivia (by simpa using hflag)).breaksLine_or hc hbreak with h | h
  · exact hflag (htells.breaks.2 h)
  · obtain ⟨before, body, after, heq, hbefore, hbody, hmem, hnot⟩ := h
    rw [hcomments before body after heq hbefore hbody c hmem hbreak] at hnot
    cases hnot

theorem line_breaks_flagged_comments : ∃ s t u, Stream.read "a/*\u2028*/\u2029b/*\n*/d".toList = .ok s ∧
    s.tokens[1]? = some t ∧ t.text = "b" ∧ t.lineBreak ∧ s.tokens[2]? = some u ∧ u.text = "d" ∧ u.lineBreak := by
  obtain ⟨s, hs, h⟩ := exists_ok_of_test (x := Stream.read "a/*\u2028*/\u2029b/*\n*/d".toList) (fun s =>
    s.tokens[1]?.any (fun t => t.text = "b" && Span.text ⟨s.stopBefore 1, t.start⟩ "a/*\u2028*/\u2029b/*\n*/d".toList =
      "/*\u2028*/\u2029".toList) &&
    s.tokens[2]?.any (fun u => u.text = "d" && Span.text ⟨s.stopBefore 2, u.start⟩ "a/*\u2028*/\u2029b/*\n*/d".toList =
      "/*\n*/".toList)) (by decide +kernel)
  simp only [Bool.and_eq_true] at h
  obtain ⟨ht, hu⟩ := h
  obtain ⟨t, ht, hfirst⟩ := (Option.any_eq_true _ _).1 ht
  obtain ⟨u, hu, hsecond⟩ := (Option.any_eq_true _ _).1 hu
  simp only [Bool.and_eq_true, decide_eq_true_eq] at hfirst hsecond
  refine ⟨s, t, u, hs, ht, hfirst.1, ?_, hu, hsecond.1, ?_⟩
  · have hcomment : Trivia False ('/' :: '*' :: ['\u2028'] ++ ['*', '/']) := .blockComment (by decide) .nil
    exact (line_breaks_flagged hs ht).1.2
      ⟨"/*\u2028*/".toList, '\u2029', [], hfirst.2, by decide, .inr hcomment⟩
  · refine ((line_breaks_flagged hs hu).2.2 ?_).2 ⟨'\n', by rw [hsecond.2]; decide, by decide⟩
    intro before body after heq _ _ c hc hbreak
    have hall : "/*\n*/".toList.all (fun c => !isLineBreak c || isNewline c) := by decide
    have hmem : c ∈ "/*\n*/".toList := by
      rw [← hsecond.2, heq]
      simp [hc]
    simpa [hbreak] using List.all_eq_true.1 hall c hmem

/-- A line separator in a block comment is none for the flag. -/
theorem line_break_unflagged : ∃ s t, Stream.read "a /*\u2028*/ b".toList = .ok s ∧ s.tokens[1]? = some t ∧
    (∃ c ∈ Span.text ⟨s.stopBefore 1, t.start⟩ "a /*\u2028*/ b".toList, isLineBreak c) ∧ t.lineBreak = false := by
  obtain ⟨s, hs, h⟩ := exists_ok_of_test (x := Stream.read "a /*\u2028*/ b".toList) (fun s =>
    s.tokens[1]?.any (fun t => (Span.text ⟨s.stopBefore 1, t.start⟩ "a /*\u2028*/ b".toList).any isLineBreak &&
      !t.lineBreak)) (by decide +kernel)
  obtain ⟨t, ht, hflag⟩ := (Option.any_eq_true _ _).1 h
  simp only [Bool.and_eq_true, Bool.not_eq_true', List.any_eq_true] at hflag
  exact ⟨s, t, hs, ht, hflag.1, hflag.2⟩

end Stream

end ModuleLowering
