import Mathlib.Data.List.Induction
import ModuleLowering.Proofs.Scan.Placement
import ModuleLowering.Proofs.Text.Lines

namespace ModuleLowering.Text

theorem lineStartsFrom_append (offset : Nat) (xs ys : List Char) :
    lineStartsFrom offset (xs ++ ys) = lineStartsFrom offset xs ++ lineStartsFrom (offset + byteLength xs) ys := by
  induction xs generalizing offset with
  | nil => rfl
  | cons c xs ih =>
    rw [List.cons_append, lineStartsFrom, lineStartsFrom, ih, byteLength_cons, Nat.add_assoc]
    split <;> rfl

theorem le_of_mem_lineStartsFrom {cs : List Char} {offset start : Nat} (h : start ∈ lineStartsFrom offset cs) :
    start ≤ offset + byteLength cs := by
  induction cs generalizing offset with
  | nil => cases h
  | cons c cs ih =>
    rw [byteLength_cons]
    unfold lineStartsFrom at h
    dsimp only at h
    split at h
    · rcases List.mem_cons.1 h with rfl | h
      · omega
      · have := ih h
        omega
    · have := ih h
      omega

theorem lineStartsFrom_eq_nil {cs : List Char} (h : '\n' ∉ cs) (offset : Nat) : lineStartsFrom offset cs = [] := by
  induction cs generalizing offset with
  | nil => rfl
  | cons c cs ih =>
    rw [List.mem_cons, not_or] at h
    rw [lineStartsFrom, if_neg (Ne.symm h.1), ih h.2]

theorem takeWhile_lineStarts (before after : List Char) :
    (lineStarts (before ++ after)).takeWhile (· ≤ byteLength before) = lineStarts before := by
  rw [lineStarts, lineStarts, lineStartsFrom_append, ← List.cons_append]
  rw [List.takeWhile_append_of_pos fun start hstart => ?_]
  · have hnone : (lineStartsFrom (0 + byteLength before) after).takeWhile (· ≤ byteLength before) = [] := by
      cases hstarts : lineStartsFrom (0 + byteLength before) after with
      | nil => rfl
      | cons start starts =>
        have := lt_of_mem_lineStartsFrom (hstarts ▸ List.mem_cons_self)
        exact List.takeWhile_cons_of_neg (by simpa using (by omega : byteLength before < start))
    rw [hnone, List.append_nil]
  · rcases List.mem_cons.1 hstart with rfl | hstart
    · simp
    · simpa using le_of_mem_lineStartsFrom hstart

def WholeLines (cs : List Char) : Prop := cs = [] ∨ cs.getLast? = some '\n'

theorem getLastD_lineStarts {lines line : List Char} (hlines : WholeLines lines) (hline : '\n' ∉ line) :
    (lineStarts (lines ++ line)).getLastD 0 = byteLength lines := by
  rw [lineStarts, lineStartsFrom_append, lineStartsFrom_eq_nil hline, List.append_nil]
  rcases hlines with rfl | hlast
  · rfl
  · obtain ⟨before, rfl⟩ := List.getLast?_eq_some_iff.1 hlast
    have hfeeds : lineStartsFrom (0 + byteLength before) ['\n'] = [byteLength (before ++ ['\n'])] := by
      simp [lineStartsFrom]
    rw [lineStartsFrom_append, hfeeds, ← List.cons_append, List.getLastD_eq_getLast?, List.getLast?_concat,
      Option.getD_some]

theorem location_of_split {lines line : List Char} (hlines : WholeLines lines) (hline : '\n' ∉ line)
    (after : List Char) :
    location (lines ++ line ++ after) (byteLength (lines ++ line)) = ⟨lines.count '\n' + 1, line.length + 1⟩ := by
  have hcolumn : (Span.mk (byteLength lines) (byteLength (lines ++ line))).text (lines ++ line ++ after) = line :=
    text_of_split rfl rfl (byteLength_append _ _).symm
  rw [Span.text] at hcolumn
  dsimp only at hcolumn
  have hcount : line.count '\n' = 0 := List.count_eq_zero.2 hline
  rw [Location.mk.injEq]
  constructor
  · rw [location_line, takeBytes_byteLength_append, List.count_append, hcount]
  · have hle : byteLength (lines ++ line) ≤ byteLength (lines ++ line ++ after) := by
      rw [byteLength_append _ after]
      omega
    simp only [location, Nat.min_eq_left hle, takeWhile_lineStarts, getLastD_lineStarts hlines hline, hcolumn]

theorem exists_wholeLines (before : List Char) :
    ∃ lines line, before = lines ++ line ∧ WholeLines lines ∧ '\n' ∉ line := by
  induction before using List.reverseRecOn with
  | nil => exact ⟨[], [], rfl, .inl rfl, by simp⟩
  | append_singleton before c ih =>
    obtain ⟨lines, line, rfl, hlines, hline⟩ := ih
    by_cases hc : c = '\n'
    · exact ⟨lines ++ line ++ [c], [], by simp, .inr (by simp [hc]), by simp⟩
    · exact ⟨lines, line ++ [c], by simp, hlines, by simp [hline, Ne.symm hc]⟩

def LocatedAt (source : List Char) (offset : Nat) (l : Location) : Prop :=
  ∃ lines line after, source = lines ++ line ++ after ∧ byteLength (lines ++ line) = offset ∧ WholeLines lines ∧
    '\n' ∉ line ∧ l = ⟨lines.count '\n' + 1, line.length + 1⟩

theorem locatedAt_location {source : List Char} {offset : Nat} (h : IsBoundary source offset) :
    LocatedAt source offset (location source offset) := by
  obtain ⟨lines, line, hsplit, hlines, hline⟩ := exists_wholeLines (takeBytes offset source)
  have hsource : lines ++ line ++ dropBytes offset source = source := by
    rw [← hsplit, takeBytes_append_dropBytes]
  have hoffset : byteLength (lines ++ line) = offset := by
    rw [← hsplit]
    exact h
  have hlocation := location_of_split hlines hline (dropBytes offset source)
  rw [hsource, hoffset] at hlocation
  exact ⟨lines, line, _, hsource.symm, hoffset, hlines, hline, hlocation⟩

end ModuleLowering.Text
