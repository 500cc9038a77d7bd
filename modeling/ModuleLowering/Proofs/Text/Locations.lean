import Mathlib.Data.List.DropRight
import Mathlib.Data.Prod.Lex
import ModuleLowering.Proofs.Lexeme.Bytes
import ModuleLowering.Proofs.Text.Columns

namespace ModuleLowering.Text

theorem count_take_utf8 (cs : List Char) (n : Nat) :
    ((utf8 cs).take n).count (asciiByte '\n') = (takeBytes n cs).count '\n' := by
  induction cs generalizing n with
  | nil => simp [takeBytes]
  | cons c cs ih =>
    have hlong (hc : ¬ c.toNat < 128) (m : Nat) :
        ((String.utf8EncodeChar c).take m).count (asciiByte '\n') = 0 := by
      rw [List.count_eq_zero]
      intro hmem
      exact ne_asciiByte (le_of_mem_utf8EncodeChar (Nat.le_of_not_lt hc) _ (List.mem_of_mem_take hmem)) (by decide) rfl
    have hsize := String.length_utf8EncodeChar (c := c)
    rw [utf8_cons, List.take_append, List.count_append, hsize, takeBytes]
    by_cases hfits : c.utf8Size ≤ n
    · rw [if_pos hfits, List.take_of_length_le (by omega), ih, Nat.add_comm, List.count_cons]
      congr 1
      by_cases hc : c.toNat < 128
      · rw [utf8EncodeChar_of_lt hc, List.count_singleton]
        simp [asciiByte_eq_iff hc]
      · have hne : c ≠ '\n' := by
          rintro rfl
          exact hc (by decide)
        have hnone := hlong hc c.utf8Size
        rw [List.take_of_length_le (Nat.le_of_eq hsize)] at hnone
        simp [hnone, hne]
    · -- What is left of a character that does not fit is no character of its own.
      rw [if_neg hfits, Nat.sub_eq_zero_of_le (Nat.le_of_not_le hfits), List.take_zero, List.count_nil, List.count_nil]
      by_cases hc : c.toNat < 128
      · have := utf8Size_of_lt hc
        rw [show n = 0 by omega]
        rfl
      · rw [hlong hc]

theorem pairwise_lineStartsFrom (cs : List Char) (offset : Nat) : (lineStartsFrom offset cs).Pairwise (· < ·) := by
  induction cs generalizing offset with
  | nil => exact .nil
  | cons c cs ih =>
    unfold lineStartsFrom
    dsimp only
    split
    · exact List.pairwise_cons.2 ⟨fun _ => lt_of_mem_lineStartsFrom, ih _⟩
    · exact ih _

theorem pairwise_lineStarts (source : List Char) : (lineStarts source).Pairwise (· < ·) :=
  List.pairwise_cons.2 ⟨fun _ => lt_of_mem_lineStartsFrom, pairwise_lineStartsFrom source 0⟩

/-- What a search of an ascending table may answer: the index of a value, or else the index at which it could be
inserted. -/
inductive Search (table : List Nat) (x : Nat) : Except Nat Nat → Prop
  | found {i : Nat} (h : table[i]? = some x) : Search table x (.ok i)
  | missing {i : Nat} (hnot : x ∉ table) (hi : i ≤ table.length) (hbefore : ∀ y ∈ table.take i, y < x)
      (hafter : ∀ y ∈ table.drop i, x < y) : Search table x (.error i)

def lineIndex? : Except Nat Nat → Option Nat
  | .ok i => some i
  | .error 0 => none
  | .error (i + 1) => some i

theorem takeWhile_eq_take {table : List Nat} {x k : Nat} (hbefore : ∀ y ∈ table.take k, y ≤ x)
    (hafter : ∀ y ∈ table.drop k, x < y) : table.takeWhile (· ≤ x) = table.take k := by
  conv => lhs; rw [← List.take_append_drop k table]
  rw [List.takeWhile_append_of_pos (by simpa using hbefore)]
  cases hrest : table.drop k with
  | nil => simp
  | cons y ys =>
    have hy := hafter y (hrest ▸ List.mem_cons_self)
    rw [List.takeWhile_cons_of_neg (by simpa using hy), List.append_nil]

theorem lt_of_mem_drop_takeWhile {table : List Nat} (h : table.Pairwise (· < ·)) {x y : Nat}
    (hy : y ∈ table.drop (table.takeWhile (· ≤ x)).length) : x < y := by
  have hdrop : table.drop (table.takeWhile (· ≤ x)).length = table.dropWhile (· ≤ x) := by
    conv => lhs; arg 2; rw [← List.takeWhile_append_dropWhile (p := (· ≤ x)) (l := table)]
    exact List.drop_left
  rw [hdrop] at hy
  have hsorted := h.sublist (List.dropWhile_sublist (· ≤ x))
  have hhead := List.head?_dropWhile_not (· ≤ x) table
  cases hrest : table.dropWhile (· ≤ x) with
  | nil => simp [hrest] at hy
  | cons z zs =>
    rw [hrest] at hy hsorted hhead
    have hz : x < z := by simpa using hhead
    rcases List.mem_cons.1 hy with rfl | hy
    · exact hz
    · exact Nat.lt_trans hz ((List.pairwise_cons.1 hsorted).1 y hy)

theorem exists_search {table : List Nat} (h : table.Pairwise (· < ·)) (x : Nat) : ∃ r, Search table x r := by
  by_cases hmem : x ∈ table
  · obtain ⟨i, hi⟩ := List.mem_iff_getElem?.1 hmem
    exact ⟨_, .found hi⟩
  · refine ⟨.error (table.takeWhile (· ≤ x)).length, .missing hmem ?_ ?_ fun y => lt_of_mem_drop_takeWhile h⟩
    · exact (List.takeWhile_sublist _).length_le
    · intro y hy
      rw [← List.prefix_iff_eq_take.1 (List.takeWhile_prefix _)] at hy
      have hle : y ≤ x := by simpa using List.all_eq_true.1 List.all_takeWhile y hy
      refine Nat.lt_of_le_of_ne hle ?_
      rintro rfl
      exact hmem ((List.takeWhile_sublist _).mem hy)

theorem Search.lineIndex?_eq {table : List Nat} (h : (0 :: table).Pairwise (· < ·)) {x : Nat} {r : Except Nat Nat}
    (hr : Search (0 :: table) x r) :
    ∃ k, lineIndex? r = some k ∧ ((0 :: table).takeWhile (· ≤ x)).length = k + 1 := by
  cases hr with
  | @found i hi =>
    refine ⟨i, rfl, ?_⟩
    obtain ⟨hlt, hget⟩ := List.getElem?_eq_some_iff.1 hi
    rw [takeWhile_eq_take (k := i + 1), List.length_take, Nat.min_eq_left hlt]
    · intro y hy
      obtain ⟨j, hj, rfl⟩ := List.mem_take_iff_getElem.1 hy
      rcases Nat.lt_or_eq_of_le (Nat.le_of_lt_succ (Nat.lt_of_lt_of_le hj (Nat.min_le_left _ _))) with hji | rfl
      · exact hget ▸ Nat.le_of_lt (List.pairwise_iff_getElem.1 h _ _ _ _ hji)
      · exact Nat.le_of_eq hget
    · intro y hy
      obtain ⟨j, hj, rfl⟩ := List.mem_drop_iff_getElem.1 hy
      exact hget ▸ List.pairwise_iff_getElem.1 h _ _ _ _ (by omega)
  | @missing i hnot hle hbefore hafter =>
    cases i with
    | zero =>
      -- The first line starts at zero, so an offset before the whole table would be negative.
      have := hafter 0 List.mem_cons_self
      omega
    | succ i =>
      refine ⟨i, rfl, ?_⟩
      rw [takeWhile_eq_take (fun y hy => Nat.le_of_lt (hbefore y hy)) hafter, List.length_take, Nat.min_eq_left hle]

def lastLine (cs : List Char) : List Char := cs.rtakeWhile (· ≠ '\n')

theorem lastLine_append {lines line : List Char} (hlines : WholeLines lines) (hline : '\n' ∉ line) :
    lastLine (lines ++ line) = line := by
  have hall : ∀ c ∈ line.reverse, decide (c ≠ '\n') = true := by
    intro c hc
    rw [decide_eq_true_eq]
    rintro rfl
    exact hline (List.mem_reverse.1 hc)
  rw [lastLine, List.rtakeWhile, List.reverse_append, List.takeWhile_append_of_pos hall]
  rcases hlines with rfl | hlast
  · simp
  · obtain ⟨before, rfl⟩ := List.getLast?_eq_some_iff.1 hlast
    simp

theorem location_column {source : List Char} {pos : Nat} (h : IsBoundary source pos) :
    (location source pos).column = (lastLine (takeBytes pos source)).length + 1 := by
  obtain ⟨lines, line, after, hsource, hpos, hlines, hline, hlocation⟩ := locatedAt_location h
  rw [hlocation, ← hpos, hsource, takeBytes_byteLength_append, lastLine_append hlines hline]

theorem location_min (source : List Char) (offset : Nat) :
    location source (min offset (byteLength source)) = location source offset := by
  simp only [location, Nat.min_assoc, Nat.min_self]

theorem Search.location_line {source : List Char} {offset : Nat} {r : Except Nat Nat}
    (hr : Search (lineStarts source) (min offset (byteLength source)) r) :
    ∃ k, lineIndex? r = some k ∧ (location source offset).line = k + 1 :=
  lineIndex?_eq (pairwise_lineStarts source) hr

def Location.lex (l : Location) : Nat ×ₗ Nat := toLex (l.line, l.column)

theorem location_lt {source : List Char} {p q : Nat} (hp : IsBoundary source p) (hq : IsBoundary source q)
    (hlt : p < q) : (location source p).lex < (location source q).lex := by
  have hsplit : takeBytes p source ++ dropBytes p source = takeBytes q source ++ dropBytes q source := by simp
  have hle : byteLength (takeBytes p source) ≤ byteLength (takeBytes q source) := by
    rw [show byteLength (takeBytes p source) = p from hp, show byteLength (takeBytes q source) = q from hq]
    exact Nat.le_of_lt hlt
  obtain ⟨middle, hmiddle, _⟩ := Woven.exists_of_append hsplit hle
  rw [Location.lex, Location.lex, Prod.Lex.toLex_lt_toLex]
  by_cases hfeed : '\n' ∈ middle
  · left
    have hcount := List.count_pos_iff.2 hfeed
    rw [Text.location_line, Text.location_line, hmiddle, List.count_append]
    dsimp only
    omega
  · -- Without a line feed between them the two offsets stand in one line.
    right
    have hlength : 0 < middle.length := by
      apply List.length_pos_iff.2
      rintro rfl
      rw [List.append_nil] at hmiddle
      have hbytes := congrArg byteLength hmiddle
      rw [show byteLength (takeBytes q source) = q from hq, show byteLength (takeBytes p source) = p from hp] at hbytes
      omega
    obtain ⟨lines, line, hwhole, hlines, hline⟩ := exists_wholeLines (takeBytes p source)
    have hline' : '\n' ∉ line ++ middle := by simp [hline, hfeed]
    rw [Text.location_line, Text.location_line, location_column hp, location_column hq, hmiddle, hwhole,
      lastLine_append hlines hline, List.append_assoc, lastLine_append hlines hline', List.count_append,
      List.count_append, List.count_append, List.count_eq_zero.2 hfeed, List.length_append]
    dsimp only
    omega

/-- The location of an offset is what counting the bytes before it and the characters after the last line feed
gives. A search of the table of line starts answers with its line and never with an index before the first, and
no two places of a text have one location. -/
theorem locations_counted (source : List Char) (offset : Nat) :
    (location source offset).line =
      1 + ((utf8 source).take (min offset (byteLength source))).count (asciiByte '\n') ∧
    (IsBoundary source (min offset (byteLength source)) →
      (location source offset).column = 1 + (lastLine (takeBytes (min offset (byteLength source)) source)).length) ∧
    (∃ r, Search (lineStarts source) (min offset (byteLength source)) r) ∧
    (∀ r, Search (lineStarts source) (min offset (byteLength source)) r →
      ∃ k, lineIndex? r = some k ∧ (location source offset).line = k + 1) ∧
    ∀ p q, IsBoundary source p → IsBoundary source q → p < q →
      (location source p).lex < (location source q).lex := by
  refine ⟨?line, ?column, exists_search (pairwise_lineStarts source) _, fun _ hr => hr.location_line,
    fun _ _ => location_lt⟩
  case line => rw [count_take_utf8, takeBytes_min, Text.location_line, Nat.add_comm]
  case column =>
    intro h
    rw [← location_min, location_column h, Nat.add_comm]

theorem locations_counted_multibyte :
    IsBoundary "a\n\né=".toList 3 ∧ IsBoundary "a\n\né=".toList 5 ∧
    Search (lineStarts "a\n\né=".toList) 5 (.error 3) ∧
    (location "a\n\né=".toList 5).line = 3 ∧ (location "a\n\né=".toList 5).column = 2 ∧
    (location "a\n\né=".toList 3).lex < (location "a\n\né=".toList 5).lex := by
  have hfirst : IsBoundary "a\n\né=".toList 3 := by decide +kernel
  have hsecond : IsBoundary "a\n\né=".toList 5 := by decide +kernel
  have hsearch : Search (lineStarts "a\n\né=".toList) 5 (.error 3) := by
    have hstarts : lineStarts "a\n\né=".toList = [0, 2, 3] := by decide +kernel
    rw [hstarts]
    exact .missing (by decide) (by decide) (by decide) (by decide)
  obtain ⟨hline, hcolumn, _, hindex, hlt⟩ := locations_counted "a\n\né=".toList 5
  obtain ⟨k, hk, hline'⟩ := hindex _ hsearch
  refine ⟨hfirst, hsecond, hsearch, ?_, ?_, hlt 3 5 hfirst hsecond (by decide)⟩
  · cases hk
    exact hline'
  · rw [hcolumn hsecond]
    decide +kernel

end ModuleLowering.Text
