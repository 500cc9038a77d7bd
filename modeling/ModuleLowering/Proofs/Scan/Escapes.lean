import ModuleLowering.Proofs.Scan.Placement

namespace ModuleLowering

open Text

theorem takeBytes_append (xs ys : List Char) (n : Nat) :
    takeBytes (byteLength xs + n) (xs ++ ys) = xs ++ takeBytes n ys := by
  induction xs with
  | nil => simp
  | cons c cs ih =>
    have hle : c.utf8Size ≤ c.utf8Size + byteLength cs + n := by omega
    have hsub : c.utf8Size + byteLength cs + n - c.utf8Size = byteLength cs + n := by omega
    rw [List.cons_append, byteLength_cons, takeBytes, if_pos hle, hsub, ih, List.cons_append]

theorem isBoundary_append (xs ys : List Char) (n : Nat) :
    IsBoundary (xs ++ ys) (byteLength xs + n) ↔ IsBoundary ys n := by
  rw [IsBoundary, takeBytes_append, byteLength_append, Nat.add_left_cancel_iff, IsBoundary]

/-- At `p` stands a `\u` without a brace after it, and the four bytes that it takes end inside a character. -/
def SplitsEscape (source : List Char) (p : Nat) : Prop :=
  ∃ before rest, source = before ++ '\\' :: 'u' :: rest ∧ byteLength before = p ∧ rest.head? ≠ some '{' ∧
    p + 6 ≤ byteLength source ∧ ¬ IsBoundary source (p + 6)

theorem SplitsEscape.append {text : List Char} {p : Nat} (h : SplitsEscape text p) (read : List Char) :
    SplitsEscape (read ++ text) (byteLength read + p) := by
  obtain ⟨before, rest, rfl, rfl, hbrace, hle, hsplit⟩ := h
  refine ⟨read ++ before, rest, by simp, by simp, hbrace, ?_, ?_⟩
  · rw [byteLength_append]
    omega
  · rwa [Nat.add_assoc, isBoundary_append]

def SplitsWithin (offset : Nat) (text : List Char) (e : Failure ScanError) : Prop :=
  ∀ p, e = .splitCharacter p → ∃ q, p = offset + q ∧ SplitsEscape text q

def RejectsWithin (Q : LexicalFault → Prop) (offset : Nat) (text : List Char) (e : Failure ScanError) : Prop :=
  ∀ r, e = .rejected r → Q r.fault ∧ ∃ n, r.offset = offset + byteLength (text.take n)

/-- The error of a reader of `text` at `offset`. It is left inside a character only after an escape in the text, and an
error of the source is one of `Q` and stands before a character of the text or at its end. -/
def FailsWithin (Q : LexicalFault → Prop) (offset : Nat) (text : List Char) (e : Failure ScanError) : Prop :=
  SplitsWithin offset text e ∧ RejectsWithin Q offset text e

namespace FailsWithin

variable {α : Type} {Q : LexicalFault → Prop} {offset : Nat} {text : List Char} {fault : LexicalFault}

theorem rejectAfter (n : Nat) (hfault : Q fault) :
    FailsOnly (FailsWithin Q offset text)
      (ModuleLowering.reject fault (offset + byteLength (text.take n)) : Except _ α) := by
  refine .error ⟨nofun, ?_⟩
  rintro _ ⟨⟩
  exact ⟨hfault, n, rfl⟩

theorem reject (hfault : Q fault) :
    FailsOnly (FailsWithin Q offset text) (ModuleLowering.reject fault offset : Except _ α) :=
  rejectAfter 0 hfault

theorem orReject {read : Option α} (hfault : Q fault) :
    FailsOnly (FailsWithin Q offset text) (Lexeme.orReject read fault offset) := by
  cases read with
  | none => exact reject hfault
  | some a => exact .ok a

theorem drop {x : Except (Failure ScanError) α} (n : Nat) {start : Nat}
    (hstart : start = offset + byteLength (text.take n)) (h : FailsOnly (FailsWithin Q start (text.drop n)) x) :
    FailsOnly (FailsWithin Q offset text) x := by
  intro e he
  obtain ⟨hsplits, hrejects⟩ := h e he
  constructor
  · intro p hp
    obtain ⟨q, rfl, hq⟩ := hsplits p hp
    have hsplit := hq.append (text.take n)
    rw [List.take_append_drop] at hsplit
    exact ⟨byteLength (text.take n) + q, by omega, hsplit⟩
  · intro r hr
    obtain ⟨hfault, k, hk⟩ := hrejects r hr
    exact ⟨hfault, n + k, by rw [List.take_add, byteLength_append, hk, hstart, Nat.add_assoc]⟩

end FailsWithin

namespace Lexeme

variable {Q : LexicalFault → Prop} {start : Nat} {c : Char} {rest : List Char}

section

-- No reader of lexemes knows what is open, so none of them tells of a closing tag without an element.
variable (hQ : ∀ fault, fault ≠ .unexpectedClosingTag → Q fault)
include hQ

theorem failsWithin_nameLength {isPart : Char → Bool} {offset : Nat} {text : List Char} :
    FailsOnly (FailsWithin Q offset text) (nameLength isPart offset text) := by
  have hbackslash : '\\'.utf8Size = 1 := rfl
  have hu : 'u'.utf8Size = 1 := rfl
  have hbrace : '{'.utf8Size = 1 := rfl
  fun_induction nameLength isPart offset text with
  | case1 | case8 => exact .ok _
  | case2 | case5 => exact FailsWithin.reject (hQ _ (by simp))
  | case3 offset rest n hn read ih =>
    refine FailsWithin.drop (n + 4) ?_ (.map ih)
    simp only [List.take_succ_cons, byteLength_cons]
    omega
  | case4 offset rest hnot digits hdigits ih =>
    refine FailsWithin.drop (digits.length + 2) ?_ (.map ih)
    have htake : rest.take digits.length = digits := by
      conv => lhs; arg 2; rw [← takeBytes_append_dropBytes 4 rest]
      exact List.take_left
    simp only [List.take_succ_cons, byteLength_cons, htake]
    omega
  | case6 offset rest hnot digits hdigits hlong =>
    refine .error ⟨?_, nofun⟩
    rintro _ ⟨⟩
    have hbytes : byteLength ('\\' :: 'u' :: rest) = 2 + byteLength rest := by
      simp only [byteLength_cons]
      omega
    refine ⟨0, rfl, [], rest, rfl, rfl, ?_, by omega, ?_⟩
    · intro hhead
      obtain ⟨tail, rfl⟩ := List.head?_eq_some_iff.1 hhead
      exact hnot tail rfl
    · intro hboundary
      exact hdigits ((isBoundary_append ['\\', 'u'] rest 4).1 hboundary)
  | case7 offset c rest _ _ _ ih => exact FailsWithin.drop 1 (by simp) (.map ih)

theorem failsWithin_ofChunk {head : Bool} :
    FailsOnly (FailsWithin Q start (c :: rest)) (ofChunk head start rest) := by
  unfold ofChunk
  split
  · exact FailsWithin.reject (hQ _ (by simp))
  all_goals exact .ok _

theorem failsWithin_ofWord {previous : Option Token} :
    FailsOnly (FailsWithin Q start (c :: rest)) (ofWord previous start c rest) := by
  apply FailsOnly.bind (failsWithin_nameLength hQ)
  intro n
  cases n with
  | zero => exact FailsWithin.reject (hQ _ (by simp))
  | succ n => exact .ok _

theorem failsWithin_ofPunctuator : FailsOnly (FailsWithin Q start (c :: rest)) (ofPunctuator start c rest) := by
  unfold ofPunctuator
  split
  · exact FailsWithin.reject (hQ _ (by simp))
  · exact .ok _

theorem failsWithin_ofCode {previous : Option Token} {inSubstitution : Bool} :
    FailsOnly (FailsWithin Q start (c :: rest)) (ofCode previous inSubstitution start c rest) := by
  have hchunk {head : Bool} : FailsOnly (FailsWithin Q start (c :: rest)) (ofChunk head start rest) :=
    failsWithin_ofChunk hQ
  unfold ofCode
  refine .ite (.bind (FailsWithin.orReject (hQ _ (by simp))) fun _ => .ok _) (.ite hchunk (.ite (.ok _) ?_))
  by_cases hash : c = '#'
  · rw [if_pos hash, hash]
    refine .bind (FailsWithin.drop 1 rfl (failsWithin_nameLength hQ)) fun n => ?_
    split
    · exact FailsWithin.reject (hQ _ (by simp))
    · exact .ok _
  rw [if_neg hash]
  refine .ite (.ok _) (.ite (.ok _) (.ite (.ok _) (.ite (.ite hchunk (.ok _)) (.ite (.ok _) (.ite (.ok _) ?_)))))
  refine .ite (.bind (FailsWithin.orReject (hQ _ (by simp))) fun _ => .ok _) (.ite (.ok _) ?_)
  exact .ite (failsWithin_ofWord hQ) (failsWithin_ofPunctuator hQ)

theorem failsWithin_ofTag : FailsOnly (FailsWithin Q start (c :: rest)) (ofTag start c rest) := by
  unfold ofTag
  refine .ite (.ok _) (.ite (.ok _) (.ite (.ok _) (.ite (.ok _) (.ite (.ok _) (.ite (.ok _) ?_)))))
  refine .ite (.bind (FailsWithin.orReject (hQ _ (by simp))) fun _ => .ok _) (.ite (.ok _) (.ite ?_ ?_))
  · exact .bind (failsWithin_nameLength hQ) fun _ => .ok _
  · exact FailsWithin.reject (hQ _ (by simp))

end

end Lexeme

namespace Scanner

variable {Q : LexicalFault → Prop} (hQ : ∀ fault, fault ≠ .unexpectedClosingTag → Q fault)
include hQ

theorem failsWithin_lexeme {s : Scanner} {c : Char} {rest : List Char} :
    FailsOnly (FailsWithin Q s.offset (c :: rest)) (s.lexeme c rest) := by
  unfold lexeme
  split
  · exact Lexeme.failsWithin_ofTag hQ
  · exact .ok _
  · exact Lexeme.failsWithin_ofCode hQ

theorem failsWithin_step {s : Scanner}
    (hplace : ∀ kind effect fault, s.nesting.place s.tokens.back? kind effect s.tokens.size = .error fault → Q fault) :
    FailsOnly (FailsWithin Q s.offset s.rest) s.step := by
  unfold step
  refine .bind ?_ fun gap => ?_
  · unfold Scanner.gap
    split
    · exact .ok _
    · split
      · exact .ok _
      · exact FailsWithin.rejectAfter _ (hQ _ (by simp))
  apply FailsWithin.drop gap.length rfl
  change FailsOnly (FailsWithin Q (s.advance gap.length).offset (s.advance gap.length).rest) _
  dsimp only
  split
  · rename_i hrest
    refine .bind ?_ fun _ => .ok _
    unfold atEnd
    split
    · exact FailsWithin.reject (hQ _ (by simp))
    · exact FailsWithin.reject (hQ _ (by simp))
    · exact .ok _
  · rename_i c rest hrest
    rw [hrest]
    refine .bind (failsWithin_lexeme hQ) fun l => ?_
    split
    · exact FailsWithin.reject (hplace _ _ _ ‹_›)
    · exact .ok _

omit hQ in
theorem fails_within (s : Scanner) : FailsOnly (FailsWithin (fun _ => True) s.offset s.rest) s.step :=
  failsWithin_step (fun _ _ => trivial) fun _ _ _ _ => trivial

end Scanner

namespace Stream

variable {source : List Char}

theorem failure_of_read {e : Failure ScanError} (h : Stream.read source = .error e) :
    (∃ n s, Scanner.Steps (Scanner.start source) n s ∧ s.step = .error e) ∨
      ∃ (s : Scanner) (region : Region) (opener : Nat), (Scanner.start source).run = .ok s ∧
        e = .rejected ⟨.unclosed region, (s.tokens[opener]?.map (·.start)).getD (byteLength source)⟩ := by
  obtain ⟨n, s, hsteps, hends⟩ := (Scanner.start source).exists_steps
  unfold Stream.read at h
  rcases bind_eq_error_iff.1 h with h | ⟨t, ht, h⟩
  · rw [h] at hends
    obtain ⟨e, he, heq⟩ | ⟨_, _, heq⟩ := hends
    · cases heq
      exact .inl ⟨n, s, hsteps, he⟩
    · cases heq
  · dsimp only at h
    split at h
    · cases h
      exact .inr ⟨t, _, _, ht, rfl⟩
    · cases h

theorem splits_of_read {p : Nat} (h : Stream.read source = .error (.splitCharacter p)) : SplitsEscape source p := by
  rcases failure_of_read h with ⟨n, s, hsteps, hstep⟩ | ⟨_, _, _, _, heq⟩
  · obtain ⟨q, rfl, hq⟩ := (s.fails_within _ hstep).1 p rfl
    obtain ⟨read, hsource, hoffset⟩ := hsteps.placedIn.split
    rw [hsource, ← hoffset]
    exact hq.append read
  · cases heq

theorem isBoundary_of_read_rejected {e : ScanError} (h : Stream.read source = .error (.rejected e)) :
    IsBoundary source e.offset := by
  rcases failure_of_read h with ⟨n, s, hsteps, hstep⟩ | ⟨s, region, opener, hrun, heq⟩
  · obtain ⟨_, k, hk⟩ := (s.fails_within _ hstep).2 e rfl
    obtain ⟨read, hsource, hoffset⟩ := hsteps.placedIn.split
    have hsplit : source = (read ++ s.rest.take k) ++ s.rest.drop k := by simpa using hsource
    rw [hk, ← hoffset, ← byteLength_append]
    conv => arg 1; rw [hsplit]
    exact isBoundary_byteLength _ _
  · cases heq
    have hplaced := (Scanner.run_induction (fun _ _ _ hs => hs.step) (Scanner.placedIn_start source) hrun).1.placed
    cases ht : s.tokens[opener]? with
    | none => simpa using isBoundary_byteLength source []
    | some t =>
      have hmem := List.mem_map_of_mem (f := Token.place) (Array.mem_toList_iff.2 (Array.mem_of_getElem? ht))
      exact (hplaced.standsIn _ hmem).isBoundary_start

end Stream

end ModuleLowering
