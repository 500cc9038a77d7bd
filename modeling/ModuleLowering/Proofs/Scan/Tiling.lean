import ModuleLowering.Proofs.Scan.Placement

namespace ModuleLowering

open Text

/-- White space and comments. A line comment reaches to a line break; only a text that ends the source
(`final`) may end in one. -/
inductive Trivia (final : Prop) : List Char → Prop
  | nil : Trivia final []
  | blank {c cs} (hc : isBlank c) (hcs : Trivia final cs) : Trivia final (c :: cs)
  | lineBreak {c cs} (hc : isLineBreak c) (hcs : Trivia final cs) : Trivia final (c :: cs)
  | lineComment {body cs} (hbody : ∀ c ∈ body, isNewline c = false)
      (hend : (cs = [] ∧ final) ∨ ∃ c, cs.head? = some c ∧ isNewline c) (hcs : Trivia final cs) :
      Trivia final ('/' :: '/' :: body ++ cs)
  | blockComment {body cs} (hbody : ¬ ['*', '/'] <:+: body) (hcs : Trivia final cs) :
      Trivia final ('/' :: '*' :: body ++ '*' :: '/' :: cs)

theorem Trivia.imp {p q : Prop} {cs : List Char} (h : Trivia p cs) (hpq : p → q) : Trivia q cs := by
  induction h with
  | nil => exact .nil
  | blank hc _ ih => exact .blank hc ih
  | lineBreak hc _ ih => exact .lineBreak hc ih
  | lineComment hbody hend _ ih => exact .lineComment hbody (hend.imp_left (And.imp_right hpq)) ih
  | blockComment hbody _ ih => exact .blockComment hbody ih

theorem takeWhile_stops (p : Char → Bool) (cs : List Char) :
    cs.drop (cs.takeWhile p).length = [] ∨ ∃ c, (cs.drop (cs.takeWhile p).length).head? = some c ∧ p c = false := by
  have hdrop := @List.drop_left _ (cs.takeWhile p) (cs.dropWhile p)
  rw [List.takeWhile_append_dropWhile] at hdrop
  have hhead := List.head?_dropWhile_not p cs
  rw [hdrop]
  cases hrest : cs.dropWhile p with
  | nil => exact .inl rfl
  | cons c rest =>
    rw [hrest] at hhead
    exact .inr ⟨c, rfl, by simpa using hhead⟩

namespace Gap

theorem exists_of_commentLength {text : List Char} {n : Nat} (h : commentLength text = some n) :
    ∃ body, text = body ++ '*' :: '/' :: text.drop n ∧ n = body.length + 2 ∧ ¬ ['*', '/'] <:+: body := by
  fun_induction commentLength text generalizing n with
  | case1 rest =>
    cases h
    exact ⟨[], rfl, rfl, by simp⟩
  | case2 c rest hnot ih =>
    obtain ⟨m, hm, rfl⟩ := Option.map_eq_some_iff.1 h
    obtain ⟨body, hbody, rfl, hfree⟩ := ih hm
    refine ⟨c :: body, congrArg (c :: ·) hbody, rfl, ?_⟩
    intro hinfix
    rcases List.infix_cons_iff.1 hinfix with hprefix | hinfix
    · obtain ⟨rfl, tail, rfl⟩ := List.cons_prefix_cons.1 hprefix
      exact hnot _ rfl hbody
    · exact hfree hinfix
  | case3 => cases h

theorem trivia_of_extend {gap g : Gap} {text : List Char} (h : gap.extend text = .ok g) :
    ∃ taken rest, text = taken ++ rest ∧ g.length = gap.length + taken.length ∧
      Trivia (rest = []) taken ∧ ∀ c, rest.head? = some c → isLineBreak c = false := by
  fun_induction extend gap text with
  | case1 gap rest body ih =>
    obtain ⟨taken, left, htext, hlength, htrivia, hstop⟩ := ih h
    have hrest : rest = body ++ (taken ++ left) := by
      rw [← htext]
      exact (List.prefix_iff_eq_append.1 (List.takeWhile_prefix _)).symm
    refine ⟨'/' :: '/' :: body ++ taken, left, by simp [← hrest], ?_, .lineComment ?_ ?_ htrivia, hstop⟩
    · simp only [hlength, List.length_append, List.length_cons]
      omega
    · intro c hc
      simpa using List.all_eq_true.1 List.all_takeWhile c hc
    · rcases takeWhile_stops (!isNewline ·) rest with hnil | ⟨c, hhead, hc⟩
      · exact .inl (List.append_eq_nil_iff.1 (htext.symm.trans hnil))
      · right
        rw [Bool.not_eq_false'] at hc
        change (rest.drop body.length).head? = some c at hhead
        rw [htext] at hhead
        cases taken with
        | nil =>
          have hnot := hstop c hhead
          rw [isLineBreak_of_isNewline hc] at hnot
          cases hnot
        | cons d ds => exact ⟨c, hhead, hc⟩
  | case2 => cases h
  | case3 gap rest n hn ih =>
    obtain ⟨taken, left, htext, hlength, htrivia, hstop⟩ := ih h
    obtain ⟨body, hbody, rfl, hfree⟩ := exists_of_commentLength hn
    refine ⟨'/' :: '*' :: body ++ '*' :: '/' :: taken, left, ?_, ?_, .blockComment hfree htrivia, hstop⟩
    · rw [htext] at hbody
      simp [hbody]
    · dsimp only at hlength
      simp only [hlength, List.length_append, List.length_cons]
      omega
  | case4 gap c rest _ _ hc ih =>
    obtain ⟨taken, left, rfl, hlength, htrivia, hstop⟩ := ih h
    refine ⟨c :: taken, left, rfl, ?_, .lineBreak hc htrivia, hstop⟩
    dsimp only at hlength
    rw [hlength, List.length_cons]
    omega
  | case5 gap c rest _ _ _ hc ih =>
    obtain ⟨taken, left, rfl, hlength, htrivia, hstop⟩ := ih h
    refine ⟨c :: taken, left, rfl, ?_, .blank hc htrivia, hstop⟩
    dsimp only at hlength
    rw [hlength, List.length_cons]
    omega
  | case6 gap c rest _ _ hc _ =>
    cases h
    exact ⟨[], c :: rest, rfl, rfl, .nil, by simpa using hc⟩
  | case7 gap =>
    cases h
    exact ⟨[], [], rfl, rfl, .nil, by simp⟩

end Gap

inductive Hashbang : List Char → List Char → Prop
  | none {rest} : Hashbang [] rest
  | line {line rest} (hline : '\n' ∉ line) (hend : rest = [] ∨ rest.head? = some '\n') :
      Hashbang ('#' :: '!' :: line) rest

theorem hashbang_start (source : List Char) : ∃ lead, source = lead ++ (Scanner.start source).rest ∧
    byteLength lead = (Scanner.start source).offset ∧ Hashbang lead (Scanner.start source).rest := by
  refine ⟨source.take (Gap.hashbangLength source), (List.take_append_drop ..).symm, rfl, ?_⟩
  change Hashbang (source.take (Gap.hashbangLength source)) (source.drop (Gap.hashbangLength source))
  unfold Gap.hashbangLength
  split
  · rename_i rest
    rw [Nat.add_comm 2, List.take_succ_cons, List.take_succ_cons, List.drop_succ_cons, List.drop_succ_cons]
    apply Hashbang.line
    · rw [List.prefix_iff_eq_take.1 (List.takeWhile_prefix _) |>.symm]
      intro hmem
      simpa using List.all_eq_true.1 List.all_takeWhile _ hmem
    · refine (takeWhile_stops (· != '\n') rest).imp_right fun ⟨c, hhead, hc⟩ => ?_
      rw [hhead]
      simpa using hc
  · exact .none

/-- Words, each at its offset, and trivia before, between and after them: together the text from `offset` on. -/
inductive Tiles : Nat → List Char → List (Nat × String) → Prop
  | last {offset gap} (hgap : Trivia True gap) : Tiles offset gap []
  | token {offset gap word rest ps} (hgap : Trivia False gap) (hword : word ≠ [])
      (hrest : Tiles (offset + byteLength gap + byteLength word) rest ps) :
      Tiles offset (gap ++ (word ++ rest)) ((offset + byteLength gap, String.ofList word) :: ps)

theorem Tiles.eq_nil {offset : Nat} {ps : List (Nat × String)} (h : Tiles offset [] ps) : ps = [] := by
  generalize htext : ([] : List Char) = text at h
  cases h with
  | last => rfl
  | token _ hword =>
    simp only [List.nil_eq, List.append_eq_nil_iff] at htext
    exact absurd htext.2.1 hword

namespace Scanner

theorem trivia_of_gap {s : Scanner} {gap : Gap} (h : s.gap = .ok gap) :
    Trivia ((s.advance gap.length).rest = []) (s.rest.take gap.length) := by
  unfold Scanner.gap at h
  split at h
  · cases h
    exact .nil
  · split at h
    · rename_i g hg
      cases h
      obtain ⟨taken, rest, htext, hlength, htrivia, _⟩ := Gap.trivia_of_extend hg
      have htaken : gap.length = taken.length := hlength.trans (Nat.zero_add _)
      simpa [advance, htext, htaken] using htrivia
    · cases h

def Continues (offset : Nat) (text : List Char) (s : Scanner) : Prop :=
  ∀ ps, Tiles s.offset s.rest ps → Tiles offset text (s.tokens.toList.map Token.place ++ ps)

theorem Continues.step {offset : Nat} {text : List Char} {s t : Scanner} {more : Bool}
    (h : Continues offset text s) (hstep : s.step = .ok (t, more)) : Continues offset text t := by
  obtain ⟨gap, hgap, ⟨_, rfl, hrest, _⟩ | ⟨_, c, rest, l, p, hrest, _, _, rfl⟩⟩ := step_cases hstep
  · intro ps hps
    have htrivia := (trivia_of_gap hgap).imp fun _ => trivial
    rw [hrest] at hps
    rw [hps.eq_nil]
    rw [List.take_of_length_le (List.drop_eq_nil_iff.1 hrest)] at htrivia
    exact h [] (.last htrivia)
  · intro ps hps
    have htrivia := (trivia_of_gap hgap).imp fun hnil => List.cons_ne_nil c rest (hrest.symm.trans hnil)
    have hword : c :: rest.take l.extra ≠ [] := List.cons_ne_nil _ _
    have htext : s.rest = s.rest.take gap.length ++ (c :: rest.take l.extra ++ rest.drop l.extra) := by
      rw [List.cons_append, List.take_append_drop, ← hrest]
      exact (List.take_append_drop ..).symm
    rw [push_tokens, map_record _ (fun _ _ => rfl), List.append_assoc]
    apply h
    rw [htext]
    exact .token htrivia hword hps

end Scanner

namespace Stream

theorem tiles_of_read {source : List Char} {s : Stream} (h : Stream.read source = .ok s) :
    ∃ lead text, source = lead ++ text ∧ Hashbang lead text ∧
      Tiles (byteLength lead) text (s.tokens.toList.map Token.place) := by
  obtain ⟨t, ht, _, rfl⟩ := Stream.read_eq_ok h
  obtain ⟨lead, hsource, hoffset, hlead⟩ := hashbang_start source
  refine ⟨lead, _, hsource, hlead, ?_⟩
  have hstart : (Scanner.start source).Continues (byteLength lead) (Scanner.start source).rest := by
    intro ps hps
    rw [hoffset]
    exact hps
  obtain ⟨hcontinues, hrest, _⟩ := Scanner.run_induction (fun _ _ _ hs => hs.step) hstart ht
  simpa using hcontinues [] (hrest ▸ .last .nil)

/-- Every step of the scanner moves on and so the scan of any source ends; where it gives tokens, they stand in
the source in order, and the source is made of them, trivia, and perhaps a hashbang line. -/
theorem tokens_tile (source : List Char) :
    (∀ s t : Scanner, s.step = .ok (t, true) → s.offset < t.offset) ∧
    (∃ n s, n ≤ byteLength source ∧ (Scanner.start source).Steps n s ∧ s.Ends (Scanner.start source).run) ∧
    ∀ s, Stream.read source = .ok s →
      (∀ t ∈ s.tokens, t.start < t.stop ∧ t.stop ≤ byteLength source ∧ IsBoundary source t.start ∧
        IsBoundary source t.stop) ∧
      s.tokens.toList.Pairwise (fun a b => a.stop ≤ b.start) ∧
      ∃ lead text, source = lead ++ text ∧ Hashbang lead text ∧
        Tiles (byteLength lead) text (s.tokens.toList.map Token.place) := by
  refine ⟨fun _ _ => Scanner.offset_lt_of_step, ?_, fun s hs => ⟨?_, ?_, tiles_of_read hs⟩⟩
  · obtain ⟨n, s, hsteps, hends⟩ := (Scanner.start source).exists_steps
    refine ⟨n, s, ?_, hsteps, hends⟩
    have := hsteps.le_offset
    have := hsteps.placedIn.offset_le
    omega
  · intro t ht
    have hstands := (placed_of_read hs).standsIn t.place (List.mem_map_of_mem (Array.mem_toList_iff.2 ht))
    have hpos := hstands.size_pos
    refine ⟨?_, hstands.stop_le, hstands.isBoundary_start, hstands.isBoundary_stop⟩
    simp only [Token.place, Token.stop] at hpos ⊢
    omega
  · exact List.pairwise_map.1 (placed_of_read hs).ordered

theorem tokens_tile_comments : ∃ s, Stream.read "#!x\na /*b*/ c//d".toList = .ok s ∧
    s.tokens.toList.map Token.place = [(4, "a"), (12, "c")] ∧
    ∃ lead text, "#!x\na /*b*/ c//d".toList = lead ++ text ∧ Hashbang lead text ∧
      Tiles (byteLength lead) text [(4, "a"), (12, "c")] := by
  obtain ⟨s, hs, htest⟩ := exists_ok_of_test (x := Stream.read "#!x\na /*b*/ c//d".toList)
    (fun s => s.tokens.toList.map Token.place == [(4, "a"), (12, "c")]) (by decide +kernel)
  have hplaces := eq_of_beq htest
  refine ⟨s, hs, hplaces, ?_⟩
  rw [← hplaces]
  exact ((tokens_tile _).2.2 s hs).2.2

end Stream

end ModuleLowering
