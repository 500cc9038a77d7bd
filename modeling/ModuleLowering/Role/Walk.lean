import ModuleLowering.Token.Basic

/-!
Walking over tokens by whole bracketed groups: the end of a binding target, of a list element and of
an initializer. Every walk moves forward.
-/

namespace ModuleLowering

namespace Stream

def closer? (s : Stream) (i : Nat) : Option Nat := s.tokens[i]?.bind (·.closer? i)

theorem lt_of_closer? {s : Stream} {i j : Nat} (h : s.closer? i = some j) : i < j := by
  obtain ⟨t, _, ht⟩ := Option.bind_eq_some_iff.1 h
  exact Token.lt_of_closer? ht

def skip (s : Stream) (i : Nat) : Nat :=
  match s.closer? i with
  | some j => j + 1
  | none => i + 1

theorem lt_skip (s : Stream) (i : Nat) : i < s.skip i := by
  unfold skip
  split
  · next h => have := lt_of_closer? h; omega
  · omega

def afterKey (s : Stream) (i : Nat) : Nat := if s.isAt i .openBracket then s.skip i else i + 1

theorem lt_afterKey (s : Stream) (i : Nat) : i < s.afterKey i := by
  unfold afterKey
  split
  · exact s.lt_skip i
  · omega

def skipToComma (s : Stream) (i stop : Nat) : Nat :=
  if i < stop then
    if s.isAt i .comma then i else s.skipToComma (s.skip i) stop
  else stop
termination_by stop - i
decreasing_by have := s.lt_skip i; omega

theorem min_le_skipToComma (s : Stream) (i stop : Nat) : min i stop ≤ s.skipToComma i stop := by
  fun_induction skipToComma s i stop with
  | case1 => omega
  | case2 i h _ ih => have := s.lt_skip i; omega
  | case3 => omega

theorem skipToComma_le (s : Stream) (i stop : Nat) : s.skipToComma i stop ≤ stop := by
  fun_induction skipToComma s i stop <;> omega

/-- The index after the binding target at `i`: a name or a pattern, perhaps with an ellipsis. What is
none of these has no length. -/
def afterTarget (s : Stream) (i stop : Nat) : Nat :=
  if i < stop then
    match s.kind? i with
    | some .ellipsis => s.afterTarget (i + 1) stop
    | some .identifier => i + 1
    | some .openBrace | some .openBracket => s.skip i
    | _ => i
  else i
termination_by stop - i

theorem le_afterTarget (s : Stream) (i stop : Nat) : i ≤ s.afterTarget i stop := by
  fun_induction afterTarget s i stop with
  | case1 => omega
  | case2 => omega
  | case3 i => exact Nat.le_of_lt (s.lt_skip i)
  | case4 i => exact Nat.le_of_lt (s.lt_skip i)
  | case5 => omega
  | case6 => omega

def nextElement (s : Stream) (i stop : Nat) : Nat := s.skipToComma (s.afterTarget i stop) stop + 1

theorem lt_nextElement (s : Stream) {i stop : Nat} (h : i ≤ stop) : i < s.nextElement i stop := by
  have h₁ := s.le_afterTarget i stop
  have h₂ := s.min_le_skipToComma (s.afterTarget i stop) stop
  unfold nextElement
  omega

def endsInitializer (s : Stream) (j : Nat) (t : Token) : Bool :=
  t.kind = .comma || t.kind = .semicolon || t.pair.any (· < j) ||
    (t.lineBreak && (s.before? j).any (·.endsExpression) &&
      match t.kind with
      | .identifier => true
      | .keyword word => word ≠ .«in» && word ≠ .instanceof
      | _ => false)

def initializerEnd (s : Stream) (j : Nat) : Nat :=
  match _h : s.tokens[j]? with
  | none => j
  | some t => if s.endsInitializer j t then j else s.initializerEnd (s.skip j)
termination_by s.tokens.size - j
decreasing_by
  have := s.lt_skip j
  have := (Array.getElem?_eq_some_iff.1 ‹_›).1
  omega

theorem le_initializerEnd (s : Stream) (j : Nat) : j ≤ s.initializerEnd j := by
  fun_induction initializerEnd s j with
  | case1 => omega
  | case2 => omega
  | case3 j _ _ _ ih => have := s.lt_skip j; omega

def skipInitializer (s : Stream) (i : Nat) : Nat :=
  if s.isAt i .equals then s.initializerEnd (i + 1) else i

theorem le_skipInitializer (s : Stream) (i : Nat) : i ≤ s.skipInitializer i := by
  unfold skipInitializer
  split
  · have := s.le_initializerEnd (i + 1); omega
  · omega

def members (s : Stream) (i stop : Nat) : List Nat :=
  if i < stop then
    match _h : s.closer? i with
    | some j => i :: j :: s.members (j + 1) stop
    | none => i :: s.members (i + 1) stop
  else []
termination_by stop - i
decreasing_by
  · have := lt_of_closer? ‹_›; omega
  · omega

end Stream

end ModuleLowering
