import ModuleLowering.Proofs.Role.Safety
import ModuleLowering.Proofs.Scan.Substitutions
import ModuleLowering.Proofs.Text.Columns

namespace ModuleLowering

open Text

namespace Text

theorem isPrefix_takeBytes (n : Nat) (cs : List Char) : takeBytes n cs <+: cs := ⟨_, takeBytes_append_dropBytes n cs⟩

theorem length_slice?_le (source : List Char) (start stop : Nat) :
    ((slice? source start stop).getD []).length ≤ byteLength source := by
  have hdrop : dropBytes start source <:+ source := ⟨_, takeBytes_append_dropBytes start source⟩
  unfold slice?
  split
  · calc (takeBytes (stop - start) (dropBytes start source)).length
      _ ≤ (dropBytes start source).length := (isPrefix_takeBytes _ _).length_le
      _ ≤ source.length := hdrop.length_le
      _ ≤ byteLength source := length_le_byteLength source
  · exact Nat.zero_le _

theorem line_le (source : List Char) (offset : Nat) : (location source offset).line ≤ byteLength source + 1 := by
  rw [location_line]
  refine Nat.succ_le_succ ?_
  calc (takeBytes offset source).count '\n'
    _ ≤ (takeBytes offset source).length := List.count_le_length
    _ ≤ source.length := (isPrefix_takeBytes offset source).length_le
    _ ≤ byteLength source := length_le_byteLength source

theorem column_le (source : List Char) (offset : Nat) : (location source offset).column ≤ byteLength source + 1 :=
  Nat.succ_le_succ (length_slice?_le source _ _)

end Text

theorem Moves.frameDepth_le {index : Nat} {t : Token} {fs gs : List Frame} (h : Moves index t fs gs) :
    frameDepth gs ≤ frameDepth fs + 1 := by
  cases h <;> simp <;> omega

namespace Scanner

structure Bounded (s : Scanner) : Prop where
  tokens : s.tokens.size ≤ s.offset
  frames : frameDepth s.nesting.frames ≤ s.tokens.size
  depths : ∀ depth ∈ s.tokens.toList.map Token.depth, depth ≤ s.tokens.size

theorem bounded_start (source : List Char) : Bounded (start source) where
  tokens := Nat.zero_le _
  frames := Nat.le_refl _
  depths := by simp [start]

theorem Bounded.step {s t : Scanner} {more : Bool} (h : Bounded s) (hstep : s.step = .ok (t, more)) : Bounded t := by
  cases more with
  | false =>
    obtain ⟨gap, _, ⟨_, rfl, _⟩ | ⟨hmore, _⟩⟩ := step_cases hstep
    · exact ⟨Nat.le_trans h.tokens (Nat.le_add_right ..), h.frames, h.depths⟩
    · cases hmore
  | true =>
    obtain ⟨u, htokens, hmoves⟩ := step_moves hstep
    have hsize : t.tokens.size = s.tokens.size + 1 := by rw [htokens, Bracketed.size_record]
    have hframes := h.frames
    refine ⟨?_, ?_, fun depth hdepth => ?_⟩
    · have := offset_lt_of_step hstep
      have := h.tokens
      omega
    · have := hmoves.frameDepth_le
      omega
    · rw [htokens, map_record Token.depth fun _ _ => rfl, List.mem_append, List.mem_singleton] at hdepth
      rcases hdepth with hdepth | rfl
      · have := h.depths depth hdepth
        omega
      · have := hmoves.depth_le
        omega

end Scanner

theorem Stream.bounded_of_read {source : List Char} {s : Stream} (h : Stream.read source = .ok s) :
    s.tokens.size ≤ byteLength source ∧ ∀ t ∈ s.tokens, t.depth ≤ byteLength source := by
  obtain ⟨t, ht, _, rfl⟩ := Stream.read_eq_ok h
  obtain ⟨hplaced, _⟩ := Scanner.run_induction (fun _ _ _ hs => hs.step) (Scanner.placedIn_start source) ht
  obtain ⟨hbounded, _⟩ := Scanner.run_induction (fun _ _ _ hs => hs.step) (Scanner.bounded_start source) ht
  have hsize := Nat.le_trans hbounded.tokens hplaced.offset_le
  refine ⟨hsize, fun u hu => ?_⟩
  exact Nat.le_trans (hbounded.depths _ (List.mem_map_of_mem (Array.mem_toList_iff.2 hu))) hsize

theorem numbers_bounded {source : List Char} {s : Stream} (h : scan source = .ok s) :
    s.stop ≤ byteLength source ∧ s.tokens.size ≤ byteLength source ∧ ∀ t ∈ s.tokens,
      t.stop ≤ byteLength source ∧ t.depth ≤ byteLength source ∧ ∀ j, t.pair = some j → j < byteLength source := by
  have hs := Stream.wellFormed_of_scan h
  obtain ⟨r, hr, houtline⟩ := Stream.outline_of_scan h
  obtain ⟨hsize, hdepths⟩ := Stream.bounded_of_read hr
  rw [← Stream.size_of_outline houtline] at hsize
  refine ⟨Nat.le_of_eq hs.stop_eq, hsize, fun t ht => ?_⟩
  obtain ⟨i, hi⟩ := Array.getElem?_of_mem ht
  obtain ⟨u, hu, hut⟩ := Stream.exists_of_outline houtline hi
  refine ⟨(hs.standsIn hi).stop_le, ?_, fun j hj => ?_⟩
  · have hdepth : u.depth = t.depth := congrArg (·.depth) hut
    exact hdepth ▸ hdepths u (Array.mem_of_getElem? hu)
  · have hpairs := (Stream.pairsWithin_of_read hr).outline houtline
    exact Nat.lt_of_lt_of_le (hpairs t ht j hj) hsize

/-- Words of 32 bits hold the numbers of a scan and the locations in its source, unless the source is as long as they
can tell. -/
theorem numbers_fit {source : List Char} {s : Stream} (h : scan source = .ok s)
    (hshort : byteLength source + 1 < 2 ^ 32) :
    s.stop < 2 ^ 32 ∧ s.tokens.size < 2 ^ 32 ∧
      (∀ t ∈ s.tokens, t.stop < 2 ^ 32 ∧ t.depth < 2 ^ 32 ∧ ∀ j, t.pair = some j → j < 2 ^ 32) ∧
      ∀ offset, (location source offset).line < 2 ^ 32 ∧ (location source offset).column < 2 ^ 32 := by
  obtain ⟨hstop, hsize, htokens⟩ := numbers_bounded h
  have hfits {n : Nat} (hn : n ≤ byteLength source + 1) : n < 2 ^ 32 := Nat.lt_of_le_of_lt hn hshort
  refine ⟨hfits (Nat.le_succ_of_le hstop), hfits (Nat.le_succ_of_le hsize), fun t ht => ?_, fun offset => ?_⟩
  · obtain ⟨hspan, hdepth, hpair⟩ := htokens t ht
    exact ⟨hfits (Nat.le_succ_of_le hspan), hfits (Nat.le_succ_of_le hdepth),
      fun j hj => hfits (Nat.le_succ_of_le (Nat.le_of_lt (hpair j hj)))⟩
  · exact ⟨hfits (line_le source offset), hfits (column_le source offset)⟩

end ModuleLowering
