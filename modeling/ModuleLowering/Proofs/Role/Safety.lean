import ModuleLowering.Proofs.Role.WellFormed
import ModuleLowering.Proofs.Scan.Safety
import ModuleLowering.Proofs.Lexeme.Bytes

namespace ModuleLowering

open Text

namespace Stream

def skipToCommaReads (s : Stream) (i stop : Nat) : List Nat :=
  if i < stop then
    i :: if s.isAt i .comma then [] else s.skipToCommaReads (s.skip i) stop
  else []
termination_by stop - i
decreasing_by have := s.lt_skip i; omega

mutual

def targetReads (s : Stream) (i stop : Nat) : List Nat :=
  if i < stop then
    i :: if i < s.tokens.size then
      match s.kind? i with
      | some .ellipsis => s.targetReads (i + 1) stop
      | some .openBrace =>
        match s.closer? i with
        | some j => j :: s.members (i + 1) j ++ s.objectReads (i + 1) j
        | none => []
      | some .openBracket =>
        match s.closer? i with
        | some j => s.listReads (i + 1) j
        | none => []
      | _ => []
    else []
  else []
termination_by 2 * (s.tokens.size - i)

def listReads (s : Stream) (i stop : Nat) : List Nat :=
  if i < stop then
    s.targetReads i stop ++ s.skipToCommaReads (s.afterTarget i stop) stop ++
      if i < s.tokens.size then s.listReads (s.nextElement i stop) stop else []
  else []
termination_by 2 * (s.tokens.size - i) + 1
decreasing_by
  · omega
  · have := s.lt_nextElement (show i ≤ stop by omega)
    omega

def objectReads (s : Stream) (i stop : Nat) : List Nat :=
  if i < stop then
    i :: if i < s.tokens.size then
      let keyEnd := s.afterKey i
      if s.isAt i .ellipsis then
        s.targetReads (i + 1) stop ++ s.skipToCommaReads (s.afterTarget (i + 1) stop) stop ++
          s.objectReads (s.nextElement (i + 1) stop) stop
      else
        (if keyEnd < stop then [keyEnd] else []) ++
          if keyEnd < stop ∧ s.isAt keyEnd .colon then
            s.targetReads (keyEnd + 1) stop ++ s.skipToCommaReads (s.afterTarget (keyEnd + 1) stop) stop ++
              s.objectReads (s.nextElement (keyEnd + 1) stop) stop
          else s.skipToCommaReads keyEnd stop ++ s.objectReads (s.skipToComma keyEnd stop + 1) stop
    else []
  else []
termination_by 2 * (s.tokens.size - i) + 1
decreasing_by
  · omega
  · have := s.lt_nextElement (show i + 1 ≤ stop by omega)
    omega
  · have := s.lt_afterKey i
    omega
  · have := s.lt_afterKey i
    have := s.lt_nextElement (show s.afterKey i + 1 ≤ stop by omega)
    omega
  · have := s.lt_afterKey i
    have := s.min_le_skipToComma (s.afterKey i) stop
    omega

end

def initializerReads (s : Stream) (j : Nat) : List Nat :=
  match _h : s.tokens[j]? with
  | none => []
  | some t => (j - 1) :: j :: if s.endsInitializer j t then [] else s.initializerReads (s.skip j)
termination_by s.tokens.size - j
decreasing_by
  have := s.lt_skip j
  have := (Array.getElem?_eq_some_iff.1 ‹_›).1
  omega

def declaratorReads (s : Stream) (i : Nat) : List Nat :=
  let target := s.afterTarget i s.tokens.size
  let stop := s.skipInitializer target
  s.targetReads i s.tokens.size ++ (if s.isAt target .equals then s.initializerReads (target + 1) else []) ++
    if _h : s.isAt stop .comma then s.declaratorReads (stop + 1) else []
termination_by s.tokens.size - i
decreasing_by
  have : s.skipInitializer (s.afterTarget i s.tokens.size) < s.tokens.size := lt_size_of_isAt ‹_›
  have := Nat.le_trans (s.le_afterTarget i s.tokens.size) (s.le_skipInitializer _)
  omega

def siteReads (s : Stream) (i : Nat) : List Nat :=
  match s.tokens[i]? with
  | none => []
  | some t =>
    i :: match t.kind with
    | .openParen =>
      match t.pair with
      | some j => (i - 1) :: (i - 2) :: if s.isParameterList i j t then s.listReads (i + 1) j else []
      | none => []
    | .keyword word => if word.declaresVariables then s.declaratorReads (i + 1) else []
    | _ => []

section

variable {s : Stream}

theorem lt_of_mem_skipToCommaReads {i stop : Nat} (hstop : stop ≤ s.tokens.size) :
    ∀ k ∈ s.skipToCommaReads i stop, k < s.tokens.size := by
  fun_induction skipToCommaReads s i stop with
  | case1 i hi ih =>
    refine List.forall_mem_cons.2 ⟨by omega, ?_⟩
    split
    · simp
    · exact ih
  | case2 => simp

theorem lt_of_mem_initializerReads (j : Nat) : ∀ k ∈ s.initializerReads j, k < s.tokens.size := by
  fun_induction initializerReads s j with
  | case1 => simp
  | case2 j t ht ih =>
    have := lt_size_of_getElem? ht
    refine List.forall_mem_cons.2 ⟨by omega, List.forall_mem_cons.2 ⟨this, ?_⟩⟩
    split
    · simp
    · exact ih

def PairsWithin (s : Stream) : Prop := ∀ t ∈ s.tokens, ∀ j, t.pair = some j → j < s.tokens.size

theorem PairsWithin.lt_of_closer? (hs : s.PairsWithin) {i j : Nat} (h : s.closer? i = some j) :
    j < s.tokens.size := by
  obtain ⟨t, ht, hj⟩ := Option.bind_eq_some_iff.1 h
  exact hs t (Array.mem_of_getElem? ht) j (Option.filter_eq_some_iff.1 hj).1

theorem lt_of_mem_members (hs : s.PairsWithin) {i stop : Nat} (hstop : stop ≤ s.tokens.size) :
    ∀ k ∈ s.members i stop, k < s.tokens.size := by
  fun_induction members s i stop with
  | case1 i hi j hj ih =>
    exact List.forall_mem_cons.2 ⟨by omega, List.forall_mem_cons.2 ⟨hs.lt_of_closer? hj, ih⟩⟩
  | case2 i hi _ ih => exact List.forall_mem_cons.2 ⟨by omega, ih⟩
  | case3 => simp

mutual

theorem lt_of_mem_targetReads (hs : s.PairsWithin) {i stop : Nat} (hstop : stop ≤ s.tokens.size) :
    ∀ k ∈ s.targetReads i stop, k < s.tokens.size := by
  unfold targetReads
  split
  · rename_i hi
    rw [if_pos (show i < s.tokens.size by omega)]
    refine List.forall_mem_cons.2 ⟨by omega, ?_⟩
    split
    · exact lt_of_mem_targetReads hs hstop
    · split
      · rename_i j hj
        have hlt := hs.lt_of_closer? hj
        refine List.forall_mem_cons.2 ⟨hlt, List.forall_mem_append.2 ⟨?_, ?_⟩⟩
        · exact lt_of_mem_members hs (Nat.le_of_lt hlt)
        · exact lt_of_mem_objectReads hs (Nat.le_of_lt hlt)
      · simp
    · split
      · rename_i j hj
        exact lt_of_mem_listReads hs (Nat.le_of_lt (hs.lt_of_closer? hj))
      · simp
    · simp
  · simp
termination_by 2 * (s.tokens.size - i)

theorem lt_of_mem_listReads (hs : s.PairsWithin) {i stop : Nat} (hstop : stop ≤ s.tokens.size) :
    ∀ k ∈ s.listReads i stop, k < s.tokens.size := by
  unfold listReads
  split
  · rename_i hi
    have := s.lt_nextElement (Nat.le_of_lt hi)
    rw [if_pos (show i < s.tokens.size by omega)]
    refine List.forall_mem_append.2 ⟨List.forall_mem_append.2 ⟨?_, ?_⟩, ?_⟩
    · exact lt_of_mem_targetReads hs hstop
    · exact lt_of_mem_skipToCommaReads hstop
    · exact lt_of_mem_listReads hs hstop
  · simp
termination_by 2 * (s.tokens.size - i) + 1

theorem lt_of_mem_objectReads (hs : s.PairsWithin) {i stop : Nat} (hstop : stop ≤ s.tokens.size) :
    ∀ k ∈ s.objectReads i stop, k < s.tokens.size := by
  unfold objectReads
  split
  · rename_i hi
    have hkey := s.lt_afterKey i
    rw [if_pos (show i < s.tokens.size by omega)]
    refine List.forall_mem_cons.2 ⟨by omega, ?_⟩
    dsimp only
    split
    · have := s.lt_nextElement (show i + 1 ≤ stop by omega)
      refine List.forall_mem_append.2 ⟨List.forall_mem_append.2 ⟨?_, ?_⟩, ?_⟩
      · exact lt_of_mem_targetReads hs hstop
      · exact lt_of_mem_skipToCommaReads hstop
      · exact lt_of_mem_objectReads hs hstop
    · refine List.forall_mem_append.2 ⟨?_, ?_⟩
      · split
        · simp; omega
        · simp
      · split
        · have := s.lt_nextElement (show s.afterKey i + 1 ≤ stop by omega)
          refine List.forall_mem_append.2 ⟨List.forall_mem_append.2 ⟨?_, ?_⟩, ?_⟩
          · exact lt_of_mem_targetReads hs hstop
          · exact lt_of_mem_skipToCommaReads hstop
          · exact lt_of_mem_objectReads hs hstop
        · have := s.min_le_skipToComma (s.afterKey i) stop
          exact List.forall_mem_append.2 ⟨lt_of_mem_skipToCommaReads hstop, lt_of_mem_objectReads hs hstop⟩
  · simp
termination_by 2 * (s.tokens.size - i) + 1

end

theorem lt_of_mem_declaratorReads (hs : s.PairsWithin) (i : Nat) : ∀ k ∈ s.declaratorReads i, k < s.tokens.size := by
  fun_induction declaratorReads s i with
  | case1 i target stop ih =>
    refine List.forall_mem_append.2 ⟨List.forall_mem_append.2 ⟨?_, ?_⟩, ?_⟩
    · exact lt_of_mem_targetReads hs (Nat.le_refl _)
    · split
      · exact lt_of_mem_initializerReads _
      · simp
    · split
      · exact ih ‹_›
      · simp

theorem lt_of_mem_siteReads (hs : s.PairsWithin) (i : Nat) : ∀ k ∈ s.siteReads i, k < s.tokens.size := by
  unfold siteReads
  split
  · simp
  · rename_i t ht
    have hi := lt_size_of_getElem? ht
    refine List.forall_mem_cons.2 ⟨hi, ?_⟩
    split
    · split
      · rename_i j hj
        refine List.forall_mem_cons.2 ⟨by omega, List.forall_mem_cons.2 ⟨by omega, ?_⟩⟩
        split
        · have := hs t (Array.mem_of_getElem? ht) j hj
          exact lt_of_mem_listReads hs (by omega)
        · simp
      · simp
    · split
      · exact lt_of_mem_declaratorReads hs _
      · simp
    · simp

end

theorem size_of_outline {r s : Stream} (h : s.outline = r.outline) : s.tokens.size = r.tokens.size := by
  have := congrArg (fun o => o.tokens.size) h
  simpa [Stream.outline] using this

theorem PairsWithin.outline {r s : Stream} (hr : r.PairsWithin) (ho : s.outline = r.outline) :
    s.PairsWithin := by
  intro t ht j hj
  obtain ⟨i, hi⟩ := Array.getElem?_of_mem ht
  obtain ⟨u, hu, hut⟩ := exists_of_outline ho hi
  have hpair : u.pair = t.pair := congrArg (fun t => t.pair) hut
  rw [size_of_outline ho]
  exact hr u (Array.mem_of_getElem? hu) j (hpair.trans hj)

theorem pairsWithin_of_read {source : List Char} {r : Stream} (h : Stream.read source = .ok r) :
    r.PairsWithin := fun _ ht _ => (bracketed_of_read h).lt_size_of_pair ht

theorem outline_markSites (r : Stream) (is : List Nat) :
    (is.foldl markSite r.assignRoles).outline = r.outline :=
  (outline_foldl outline_markSite is r.assignRoles).trans (outline_foldl outline_assignRole _ r)

end Stream

/-- The scanner is left without an answer only by an escape whose four bytes end inside a character. On all
other ways every text that it takes begins and ends between characters, what is open is counted down from more
than zero, and the indices that it uses are those of tokens. -/
theorem scan_safe (source : List Char) :
    (∀ p, scan source = .error (.splitCharacter p) → SplitsEscape source p) ∧
    ((∀ p, ¬ SplitsEscape source p) →
      (∃ s, scan source = .ok s) ∨ ∃ e, scan source = .error (.rejected e)) ∧
    (∀ n s, (Scanner.start source).Steps n s → s.Safe source) ∧
    (∀ rest, rest <:+ source → Lexeme.Resynchronized rest) ∧
    ∀ r, Stream.read source = .ok r →
      (∀ t ∈ r.tokens, IsBoundary source t.start ∧ IsBoundary source t.stop) ∧
      ∀ i, ∀ k ∈ ((List.range i).foldl Stream.markSite r.assignRoles).siteReads i, k < r.tokens.size := by
  have hsplits (p : Nat) (h : scan source = .error (.splitCharacter p)) : SplitsEscape source p :=
    Stream.splits_of_read (map_eq_error_iff.1 h)
  refine ⟨hsplits, ?_, fun _ _ => Scanner.Steps.safe, fun rest _ => Lexeme.resynchronized rest, ?_⟩
  · intro hnone
    cases hscan : scan source with
    | ok s => exact .inl ⟨s, rfl⟩
    | error e =>
      cases e with
      | rejected e => exact .inr ⟨e, rfl⟩
      | splitCharacter p => exact absurd (hsplits p hscan) (hnone p)
  · intro r hr
    refine ⟨fun t ht => ?_, fun i k hk => ?_⟩
    · have hstands := (Stream.placed_of_read hr).standsIn t.place (List.mem_map_of_mem (Array.mem_toList_iff.2 ht))
      exact ⟨hstands.isBoundary_start, hstands.isBoundary_stop⟩
    · have houtline := Stream.outline_markSites r (List.range i)
      have hpairs := (Stream.pairsWithin_of_read hr).outline houtline
      rw [← Stream.size_of_outline houtline]
      exact Stream.lt_of_mem_siteReads hpairs i k hk

/-- An escape of which the fourth byte is the first of two. -/
theorem scan_safe_split : scan "a\\u000é".toList = .error (.splitCharacter 1) ∧
    SplitsEscape "a\\u000é".toList 1 := by
  have htest : (match scan "a\\u000é".toList with
      | .error (.splitCharacter p) => p == 1
      | _ => false) = true := by decide +kernel
  split at htest
  · rename_i p hscan
    obtain rfl : p = 1 := by simpa using htest
    exact ⟨hscan, (scan_safe _).1 1 hscan⟩
  · cases htest

end ModuleLowering
