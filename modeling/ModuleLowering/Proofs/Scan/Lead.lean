import ModuleLowering.Lowering.Prologue
import ModuleLowering.Proofs.Scan.Tiling

namespace ModuleLowering

open Text

theorem Gap.le_length_of_extend {gap g : Gap} {text : List Char} (h : gap.extend text = .ok g) :
    gap.length ≤ g.length := by
  obtain ⟨taken, _, _, hlength, _⟩ := trivia_of_extend h
  omega

theorem Gap.length_pos_of_read {rest : List Char} {g : Gap} (h : Gap.read ('\n' :: rest) = .ok g) :
    0 < g.length := by
  unfold Gap.read Gap.extend at h
  have hle : (⟨1, true⟩ : Gap).length ≤ g.length := Gap.le_length_of_extend h
  exact hle

theorem prologueLead_cases (source : List Char) :
    prologueLead source = source.take (Gap.hashbangLength source) ∨
      ∃ rest, source.drop (Gap.hashbangLength source) = '\n' :: rest ∧
        prologueLead source = source.take (Gap.hashbangLength source) ++ ['\n'] := by
  unfold prologueLead
  split
  · rename_i rest
    obtain ⟨line, hline⟩ : ∃ line, rest.takeWhile (· != '\n') = line := ⟨_, rfl⟩
    have hsplit := List.takeWhile_append_dropWhile (p := (· != '\n')) (l := rest)
    have hhead := List.head?_dropWhile_not (· != '\n') rest
    rw [hline] at hsplit
    have hword : ('#' :: '!' :: rest).takeWhile (· != '\n') = '#' :: '!' :: line := by simp [hline]
    have hlength : Gap.hashbangLength ('#' :: '!' :: rest) = 2 + line.length := by rw [← hline]; rfl
    have htake : line.take (line.length + 1) = line := List.take_of_length_le (Nat.le_succ _)
    dsimp only
    rw [hword, hlength]
    cases htail : rest.dropWhile (· != '\n') with
    | nil =>
      left
      rw [htail, List.append_nil] at hsplit
      simp [← hsplit, Nat.add_comm 2, htake]
    | cons c cs =>
      right
      rw [htail] at hsplit hhead
      obtain rfl : c = '\n' := by simpa using hhead
      exact ⟨cs, by simp [← hsplit, Nat.add_comm 2], by simp [← hsplit, Nat.add_comm 2, List.take_append, htake]⟩
  · rename_i hnot
    left
    unfold Gap.hashbangLength
    split
    · exact absurd rfl (hnot _)
    · rfl

namespace Scanner

structure PastLead (source : List Char) (s : Scanner) : Prop where
  offset : s = start source ∨ prologueOffset source ≤ s.offset
  tokens : ∀ p ∈ s.tokens.toList.map Token.place, prologueOffset source ≤ p.1

theorem pastLead_start (source : List Char) : PastLead source (start source) where
  offset := .inl rfl
  tokens := by simp [start]

theorem PastLead.le_offset {source : List Char} {s : Scanner} (h : PastLead source s) {gap : Gap}
    (hgap : s.gap = .ok gap) : prologueOffset source ≤ (s.advance gap.length).offset := by
  rcases h.offset with rfl | h
  · rcases prologueLead_cases source with hl | ⟨rest, hrest, hl⟩
    · rw [prologueOffset, hl]
      exact Nat.le_add_right _ _
    · have hread : Gap.read ('\n' :: rest) = .ok gap := by
        rw [← hrest]
        unfold Scanner.gap start Nesting.empty at hgap
        dsimp only at hgap
        split at hgap <;> cases hgap
        assumption
      obtain ⟨n, hn⟩ := Nat.exists_eq_succ_of_ne_zero (Nat.ne_of_gt (Gap.length_pos_of_read hread))
      rw [prologueOffset, hl, byteLength_append]
      simp [Scanner.advance, start, hrest, hn]
  · exact Nat.le_trans h (Nat.le_add_right _ _)

theorem PastLead.step {source : List Char} {s t : Scanner} {more : Bool} (h : PastLead source s)
    (hstep : s.step = .ok (t, more)) : PastLead source t := by
  obtain ⟨gap, hgap, ⟨_, rfl, _, _⟩ | ⟨_, c, rest, l, p, _, _, _, rfl⟩⟩ := step_cases hstep
  · exact ⟨.inr (h.le_offset hgap), h.tokens⟩
  · have hle := h.le_offset hgap
    refine ⟨.inr (Nat.le_trans hle (Nat.le_add_right _ _)), ?_⟩
    rw [push_tokens, map_record _ (fun _ _ => rfl)]
    intro q hq
    rcases List.mem_append.1 hq with hq | hq
    · exact h.tokens q hq
    · rw [List.mem_singleton.1 hq]
      exact hle

end Scanner

theorem Stream.prologueOffset_le_of_read {source : List Char} {s : Stream} (h : Stream.read source = .ok s) :
    ∀ p ∈ s.tokens.toList.map Token.place, prologueOffset source ≤ p.1 := by
  obtain ⟨t, ht, _, rfl⟩ := Stream.read_eq_ok h
  exact (Scanner.run_induction (fun _ _ _ hs => hs.step) (Scanner.pastLead_start source) ht).1.tokens

end ModuleLowering
