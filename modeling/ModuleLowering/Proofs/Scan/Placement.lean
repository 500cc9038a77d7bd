import ModuleLowering.Proofs.Scan.Run

namespace ModuleLowering

open Text

def Token.place (t : Token) : Nat × String := (t.start, t.text)

def StandsIn (source : List Char) (p : Nat × String) : Prop :=
  p.2 ≠ "" ∧ ∃ before after, source = before ++ p.2.toList ++ after ∧ byteLength before = p.1

structure Placed (source : List Char) (ps : List (Nat × String)) : Prop where
  standsIn : ∀ p ∈ ps, StandsIn source p
  ordered : ps.Pairwise fun p q => p.1 + p.2.utf8ByteSize ≤ q.1

theorem utf8ByteSize_eq_byteLength (w : String) : w.utf8ByteSize = byteLength w.toList := by
  rw [← utf8ByteSize_ofList, String.ofList_toList]

theorem StandsIn.stop_eq {source : List Char} {p : Nat × String} (h : StandsIn source p) :
    ∃ before after, source = before ++ p.2.toList ++ after ∧ byteLength before = p.1 ∧
      byteLength (before ++ p.2.toList) = p.1 + p.2.utf8ByteSize := by
  obtain ⟨_, before, after, hs, hb⟩ := h
  refine ⟨before, after, hs, hb, ?_⟩
  rw [byteLength_append, hb, utf8ByteSize_eq_byteLength]

theorem StandsIn.size_pos {source : List Char} {p : Nat × String} (h : StandsIn source p) :
    0 < p.2.utf8ByteSize := by
  rw [utf8ByteSize_eq_byteLength]
  have hne : p.2.toList ≠ [] := by simpa using h.1
  have := length_le_byteLength p.2.toList
  have := List.length_pos_iff.2 hne
  omega

theorem StandsIn.stop_le {source : List Char} {p : Nat × String} (h : StandsIn source p) :
    p.1 + p.2.utf8ByteSize ≤ byteLength source := by
  obtain ⟨before, after, hs, _, hstop⟩ := h.stop_eq
  rw [hs, byteLength_append, hstop]
  omega

theorem isBoundary_byteLength (before after : List Char) :
    IsBoundary (before ++ after) (byteLength before) := by
  rw [IsBoundary, takeBytes_byteLength_append]

theorem StandsIn.isBoundary_start {source : List Char} {p : Nat × String} (h : StandsIn source p) :
    IsBoundary source p.1 := by
  obtain ⟨before, after, hs, hb, _⟩ := h.stop_eq
  rw [hs, List.append_assoc, ← hb]
  exact isBoundary_byteLength _ _

theorem StandsIn.isBoundary_stop {source : List Char} {p : Nat × String} (h : StandsIn source p) :
    IsBoundary source (p.1 + p.2.utf8ByteSize) := by
  obtain ⟨before, after, hs, _, hstop⟩ := h.stop_eq
  rw [hs, ← hstop]
  exact isBoundary_byteLength _ _

theorem Placed.nil (source : List Char) : Placed source [] := ⟨by simp, .nil⟩

theorem Placed.snoc {source : List Char} {ps : List (Nat × String)} {p : Nat × String}
    (h : Placed source ps) (hp : StandsIn source p) (hlast : ∀ q ∈ ps, q.1 + q.2.utf8ByteSize ≤ p.1) :
    Placed source (ps ++ [p]) := by
  constructor
  · intro q hq
    rcases List.mem_append.1 hq with hq | hq
    · exact h.standsIn q hq
    · rw [List.mem_singleton.1 hq]
      exact hp
  · refine List.pairwise_append.2 ⟨h.ordered, List.pairwise_singleton _ _, ?_⟩
    intro q hq r hr
    rw [List.mem_singleton.1 hr]
    exact hlast q hq

theorem map_record {α : Type} (f : Token → α) (hf : ∀ t p, f { t with pair := p } = f t)
    (tokens : Array Token) (t : Token) :
    (Scanner.record tokens t).toList.map f = tokens.toList.map f ++ [f t] := by
  unfold Scanner.record
  split
  · simp
  · rename_i opener _
    simp only [Array.toList_push, List.map_append, List.map_cons, List.map_nil, Array.toList_modify]
    congr 1
    apply List.ext_getElem?
    intro i
    simp only [List.getElem?_map, List.getElem?_modify]
    split
    · cases tokens.toList[i]? <;> simp [hf]
    · simp

namespace Scanner

structure PlacedIn (source : List Char) (s : Scanner) : Prop where
  split : ∃ read, source = read ++ s.rest ∧ byteLength read = s.offset
  placed : Placed source (s.tokens.toList.map Token.place)
  before : ∀ p ∈ s.tokens.toList.map Token.place, p.1 + p.2.utf8ByteSize ≤ s.offset

theorem placedIn_start (source : List Char) : PlacedIn source (start source) where
  split := ⟨source.take (Gap.hashbangLength source), by simp [start], rfl⟩
  placed := Placed.nil source
  before := by simp [start]

theorem PlacedIn.advance {source : List Char} {s : Scanner} (h : PlacedIn source s) (n : Nat) :
    PlacedIn source (s.advance n) := by
  obtain ⟨read, hs, hb⟩ := h.split
  refine ⟨⟨read ++ s.rest.take n, ?_, ?_⟩, h.placed, ?_⟩
  · rw [List.append_assoc]
    simpa [Scanner.advance] using hs
  · rw [byteLength_append, hb]
    rfl
  · intro p hp
    have := h.before p hp
    simp only [Scanner.advance]
    omega

theorem PlacedIn.push {source : List Char} {s : Scanner} (h : PlacedIn source s) {c : Char}
    {rest : List Char} (hrest : s.rest = c :: rest) (lineBreak : Bool) (l : Lexeme) (p : Place) :
    PlacedIn source (s.push lineBreak c rest l p) := by
  obtain ⟨read, hs, hb⟩ := h.split
  let word := c :: rest.take l.extra
  have hword : source = read ++ word ++ rest.drop l.extra := by
    rw [hs, hrest, List.append_assoc]
    simp [word]
  have htokens := push_tokens s lineBreak c rest l p
  have hplaces : (s.push lineBreak c rest l p).tokens.toList.map Token.place =
      s.tokens.toList.map Token.place ++ [(s.offset, String.ofList word)] := by
    rw [htokens, map_record _ (fun _ _ => rfl)]
    rfl
  have hsize : (String.ofList word).utf8ByteSize = byteLength word := utf8ByteSize_ofList word
  have hstands : StandsIn source (s.offset, String.ofList word) := by
    refine ⟨by simp [word], read, rest.drop l.extra, ?_, hb⟩
    simpa using hword
  refine ⟨⟨read ++ word, hword, ?_⟩, ?_, ?_⟩
  · rw [byteLength_append, hb]
    rfl
  · rw [hplaces]
    exact h.placed.snoc hstands h.before
  · rw [hplaces]
    intro q hq
    change q.1 + q.2.utf8ByteSize ≤ s.offset + byteLength word
    rcases List.mem_append.1 hq with hq | hq
    · have := h.before q hq
      omega
    · exact Nat.le_of_eq (by rw [List.mem_singleton.1 hq, hsize])

theorem PlacedIn.step {source : List Char} {s t : Scanner} {more : Bool} (h : PlacedIn source s)
    (hstep : s.step = .ok (t, more)) : PlacedIn source t := by
  obtain ⟨gap, _, ⟨_, rfl, _, _⟩ | ⟨_, c, rest, l, p, hrest, _, _, rfl⟩⟩ := step_cases hstep
  · exact h.advance _
  · exact (h.advance _).push hrest _ _ _

theorem Steps.placedIn {source : List Char} {n : Nat} {s : Scanner} (h : Steps (start source) n s) :
    PlacedIn source s := h.induction (fun _ _ hs => hs.step) (placedIn_start source)

theorem PlacedIn.offset_le {source : List Char} {s : Scanner} (h : PlacedIn source s) :
    s.offset ≤ byteLength source := by
  obtain ⟨read, hsource, hoffset⟩ := h.split
  rw [hsource, byteLength_append]
  omega

end Scanner

theorem Stream.placed_of_read {source : List Char} {s : Stream} (h : Stream.read source = .ok s) :
    Placed source (s.tokens.toList.map Token.place) := by
  obtain ⟨t, ht, _, rfl⟩ := Stream.read_eq_ok h
  exact (Scanner.run_induction (fun _ _ _ hs => hs.step) (Scanner.placedIn_start source) ht).1.placed

end ModuleLowering
