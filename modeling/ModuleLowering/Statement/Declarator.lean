import ModuleLowering.Lexeme.Failure
import ModuleLowering.Statement.Expression
import ModuleLowering.Statement.Name

namespace ModuleLowering

structure Declarator where
  names : List String
  simple : Bool
  equalsEnd : Option Nat
  deriving DecidableEq

namespace Stream

def elementTarget (s : Stream) (inObject : Bool) (i : Nat) : Nat :=
  if s.isAt i .ellipsis then i + 1
  else if inObject && s.isAt (s.afterKey i) .colon then s.afterKey i + 1
  else i

theorem le_elementTarget (s : Stream) (inObject : Bool) (i : Nat) : i ≤ s.elementTarget inObject i := by
  have := s.lt_afterKey i
  unfold elementTarget
  split
  · omega
  · split <;> omega

def commaAtDepth (s : Stream) (depth i stop : Nat) : Nat :=
  if i < stop then
    if s.tokens[i]?.any fun t => t.kind = .comma && t.depth = depth then i
    else s.commaAtDepth depth (i + 1) stop
  else i
termination_by stop - i

theorem le_commaAtDepth (s : Stream) (depth i stop : Nat) : i ≤ s.commaAtDepth depth i stop := by
  fun_induction commaAtDepth s depth i stop <;> omega

mutual

def patternNames (s : Stream) (i : Nat) : List String :=
  match _h : s.tokens[i]?, s.closer? i with
  | some t, some stop => s.elementNames (t.kind = .openBrace) (t.depth + 1) (i + 1) stop
  | _, _ => []
termination_by 2 * (s.tokens.size - i)
decreasing_by
  have := (Array.getElem?_eq_some_iff.1 ‹_›).1
  omega

def elementNames (s : Stream) (inObject : Bool) (depth i stop : Nat) : List String :=
  if i < stop ∧ i < s.tokens.size then
    let target := s.elementTarget inObject i
    let bound := match s.kind? target with
      | some .identifier => (s.identifier? target).toList
      | some .openBrace | some .openBracket => s.patternNames target
      | _ => []
    bound ++ s.elementNames inObject depth (s.commaAtDepth depth target stop + 1) stop
  else []
termination_by 2 * (s.tokens.size - i) + 1
decreasing_by
  · have : i ≤ target := s.le_elementTarget inObject i
    omega
  · have := s.le_elementTarget inObject i
    have := s.le_commaAtDepth depth (s.elementTarget inObject i) stop
    omega

end

def declaratorTarget? (s : Stream) (i : Nat) : Option (List String × Bool × Nat) :=
  match s.tokens[i]? with
  | none => none
  | some t =>
    match t.kind with
    | .identifier => some ([t.text], true, i + 1)
    | .openBrace | .openBracket => (s.closer? i).map fun j => (s.patternNames i, false, j + 1)
    | _ => none

theorem lt_of_declaratorTarget? {s : Stream} {i j : Nat} {names : List String} {simple : Bool}
    (h : s.declaratorTarget? i = some (names, simple, j)) : i < j ∧ i < s.tokens.size := by
  unfold declaratorTarget? at h
  split at h
  · cases h
  · rename_i t ht
    refine ⟨?_, (Array.getElem?_eq_some_iff.1 ht).1⟩
    split at h
    · cases h; omega
    all_goals first
      | cases h
      | obtain ⟨j, hj, he⟩ := Option.map_eq_some_iff.1 h
        cases he
        have := lt_of_closer? hj
        omega

def initializer (s : Stream) (i : Nat) : Except Nat (Option Nat × Nat) :=
  if s.isAt i .equals then
    let stop := s.expressionEnd (i + 1)
    if stop = i + 1 then .error stop else .ok (some (s.stopBefore (i + 1)), stop)
  else .ok (none, i)

theorem le_of_initializer {s : Stream} {i j : Nat} {e : Option Nat} (h : s.initializer i = .ok (e, j)) :
    i ≤ j := by
  unfold initializer at h
  split at h
  · dsimp only at h
    have := s.le_expressionEnd (i + 1)
    split at h
    · cases h
    · cases h; omega
  · cases h; omega

def declarators (s : Stream) (i : Nat) : Except Nat (List Declarator × Nat) :=
  match _h : s.declaratorTarget? i with
  | none => .error i
  | some (names, simple, j) =>
    match _e : s.initializer j with
    | .error k => .error k
    | .ok (equalsEnd, k) =>
      let first : Declarator := ⟨names, simple, equalsEnd⟩
      if s.isAt k .comma then (s.declarators (k + 1)).map fun (rest, n) => (first :: rest, n)
      else .ok ([first], k)
termination_by s.tokens.size - i
decreasing_by
  have := lt_of_declaratorTarget? ‹_›
  have := le_of_initializer ‹_›
  omega

theorem lt_of_declarators {s : Stream} {i j : Nat} {ds : List Declarator}
    (h : s.declarators i = .ok (ds, j)) : i < j := by
  fun_induction declarators s i generalizing ds j with
  | case1 => cases h
  | case2 => cases h
  | case3 i _ _ _ ht _ _ hi =>
    rename_i ih
    obtain ⟨⟨rest, n⟩, hn, he⟩ := map_eq_ok_iff.1 h
    cases he
    have := ih hn
    have := lt_of_declaratorTarget? ht
    have := le_of_initializer hi
    omega
  | case4 i _ _ _ ht _ _ hi =>
    cases h
    have := lt_of_declaratorTarget? ht
    have := le_of_initializer hi
    omega

theorem le_of_initializer_error {s : Stream} {i j : Nat} (h : s.initializer i = .error j) : i ≤ j := by
  unfold initializer at h
  split at h
  · dsimp only at h
    have := s.le_expressionEnd (i + 1)
    split at h
    · cases h; omega
    · cases h
  · cases h

theorem le_of_declarators_error {s : Stream} {i j : Nat} (h : s.declarators i = .error j) : i ≤ j := by
  fun_induction declarators s i generalizing j with
  | case1 => cases h; omega
  | case2 i _ _ _ ht _ hi =>
    cases h
    have := lt_of_declaratorTarget? ht
    have := le_of_initializer_error hi
    omega
  | case3 i _ _ _ ht _ k hi =>
    rename_i ih
    have := lt_of_declaratorTarget? ht
    have := le_of_initializer hi
    cases hk : s.declarators (k + 1) with
    | error n =>
      rw [hk] at h
      cases h
      have := ih hk
      omega
    | ok => rw [hk] at h; cases h
  | case4 => cases h

end Stream

end ModuleLowering
