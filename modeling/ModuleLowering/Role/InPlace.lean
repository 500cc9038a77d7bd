import ModuleLowering.Role.Binding

/-!
Classification in place. Here the walks over binding targets set their marks as they go, in the order of the tokens,
a token is looked at by an index that must be one of a token, and a walk has only as many calls to itself as it is
given. So a result tells that the walks end and that every index is one of a token.
-/

namespace ModuleLowering

namespace Stream.InPlace

def write (s : Stream) (i : Nat) (f : Token → Token) : Option Stream :=
  if i < s.tokens.size then some (s.update i f) else none

def previous (s : Stream) (i : Nat) : Option (Option Token) :=
  if i = 0 then some none else s.tokens[i - 1]?.map some

def beginsProperty (s : Stream) : Nat → Option Bool
  | 0 => some false
  | i + 1 => do
    let p ← s.tokens[i]?
    match p.kind with
    | .openBrace => return p.group = some .object || p.group = some .pattern
    | .comma => return true
    | .asterisk => beginsProperty s i
    | .identifier => return p.role = some .modifier
    | _ => return false

def beginsMember (s : Stream) : Nat → Option Bool
  | 0 => some false
  | i + 1 => do
    let t ← s.tokens[i + 1]?
    let p ← s.tokens[i]?
    match p.kind with
    | .openBrace => return p.group = some .classBody
    | .semicolon | .closeBrace => return true
    | .asterisk => beginsMember s i
    | .identifier => return p.role = some .modifier || (t.lineBreak && p.endsExpression)
    | _ => return t.lineBreak && p.endsExpression

def beginsStatement (s : Stream) (i : Nat) : Option Bool := do
  let t ← s.tokens[i]?
  match ← previous s i with
  | none => return true
  | some p =>
    match p.kind with
    | .semicolon | .closeBrace => return true
    | .openBrace => return p.group = some .block
    | _ => return t.lineBreak && p.endsExpression

def followsDeclarator (s : Stream) (i : Nat) : Option Bool := do
  match (← previous s i).map Token.kind with
  | some (.keyword .function) | some (.keyword .«class») => return true
  | some .asterisk => return (← previous s (i - 1)).any (·.kind = .keyword .function)
  | _ => return false

def both (first : Bool) (second : Option Bool) : Option Bool := if first then second else some false

/-- It looks at the token itself and at the one before it first. What needs no other token is decided by
`Stream.roleAt`. -/
def roleAt (s : Stream) (i : Nat) : Option Role := do
  let t ← s.tokens[i]?
  let p ← previous s i
  if t.kind = .privateIdentifier || p.any fun p => p.kind = .dot || p.kind = .questionDot then return .member
  else if t.context = .jsxTag then return s.tagRole i t
  else if ← followsDeclarator s i then return .declaration
  else if s.followsJump i t then return .label
  else if ← both (t.context = .object || t.context = .pattern) (beginsProperty s i) then return s.propertyRole i t
  else if ← both (t.context = .classBody) (beginsMember s i) then return s.memberRole i t
  else if ← both (t.context.holdsStatements && s.isAt (i + 1) .colon) (beginsStatement s i) then return .label
  else return .reference

def assign (s : Stream) (i : Nat) : Option Stream := do
  let t ← s.tokens[i]?
  if t.kind.hasRole then
    let role ← roleAt s i
    write s i fun t => { t with role := some role }
  else return s

def skip (i : Nat) (t : Token) : Nat := ((t.closer? i).map (· + 1)).getD (i + 1)

theorem lt_skip (i : Nat) (t : Token) : i < skip i t := by
  unfold skip
  cases hj : t.closer? i with
  | none => exact Nat.lt_succ_self i
  | some j => exact Nat.lt_succ_of_lt (Token.lt_of_closer? hj)

def skipToComma (s : Stream) (i stop : Nat) : Option Nat := do
  if i < stop then
    let t ← s.tokens[i]?
    if t.kind = .comma then return i else skipToComma s (skip i t) stop
  else return stop
termination_by stop - i
decreasing_by
  have := lt_skip i t
  omega

def enter (s : Stream) (i : Nat) : Option Stream :=
  write s i fun t => if t.context = .object then { t with context := .pattern } else t

def enterAll (s : Stream) (i stop : Nat) : Option Stream := do
  if i < stop then
    let s ← enter s i
    let t ← s.tokens[i]?
    let s ← match t.closer? i with
      | some j => enter s j
      | none => some s
    enterAll s (skip i t) stop
  else return s
termination_by stop - i
decreasing_by
  have := lt_skip i t
  omega

def retag (s : Stream) (i j : Nat) : Option Stream := do
  let s ← write s i fun t => { t with group := some .pattern }
  let s ← write s j fun t => { t with group := some .pattern }
  enterAll s (i + 1) j

def keyEnd (i : Nat) (t : Token) : Nat :=
  match t.kind with
  | .openBracket => (t.pair.map (· + 1)).getD (i + 1)
  | _ => i + 1

mutual

def target : Nat → Stream → Nat → Nat → Option (Stream × Nat)
  | 0, _, _, _ => none
  | n + 1, s, i, stop => do
    if i < stop then
      let t ← s.tokens[i]?
      match t.kind with
      | .ellipsis => target n s (i + 1) stop
      | .identifier =>
        let s ← write s i fun t =>
          if t.role = some .reference || t.role = some .shorthand then { t with role := some .declaration } else t
        return (s, i + 1)
      | .openBrace =>
        match t.pair with
        | some j => return (← object n (← retag s i j) (i + 1) j, j + 1)
        | none => return (s, i + 1)
      | .openBracket =>
        match t.pair with
        | some j => return (← list n s (i + 1) j, j + 1)
        | none => return (s, i + 1)
      | _ => return (s, i)
    else return (s, i)

def list : Nat → Stream → Nat → Nat → Option Stream
  | 0, _, _, _ => none
  | n + 1, s, i, stop => do
    if i < stop then
      let (s, next) ← target n s i stop
      list n s ((← skipToComma s next stop) + 1) stop
    else return s

def object : Nat → Stream → Nat → Nat → Option Stream
  | 0, _, _, _ => none
  | n + 1, s, i, stop => do
    if i < stop then
      let t ← s.tokens[i]?
      if t.kind = .ellipsis then
        let (s, next) ← target n s (i + 1) stop
        object n s ((← skipToComma s next stop) + 1) stop
      else if ← both (keyEnd i t < stop) (s.tokens[keyEnd i t]?.map (·.kind = .colon)) then
        let (s, next) ← target n s (keyEnd i t + 1) stop
        object n s ((← skipToComma s next stop) + 1) stop
      else
        let s ← if t.kind = .identifier then write s i fun t => { t with role := some .declaration } else some s
        object n s ((← skipToComma s (keyEnd i t) stop) + 1) stop
    else return s

end

def initializerEnd (s : Stream) (j : Nat) : Option Nat :=
  match _h : s.tokens[j]? with
  | none => some j
  | some t => do
    let p ← s.before? j
    if t.kind = .comma || t.kind = .semicolon || t.pair.any (· < j) || (t.lineBreak && p.endsExpression &&
      match t.kind with
      | .identifier => true
      | .keyword word => word ≠ .«in» && word ≠ .instanceof
      | _ => false) then return j
    else initializerEnd s (skip j t)
termination_by s.tokens.size - j
decreasing_by
  have := lt_skip j t
  have := (Array.getElem?_eq_some_iff.1 ‹_›).1
  omega

def afterInitializer (s : Stream) (i : Nat) : Option Nat :=
  if s.isAt i .equals then initializerEnd s (i + 1) else some i

def declarators : Nat → Stream → Nat → Option Stream
  | 0, _, _ => none
  | n + 1, s, i => do
    let (s, next) ← target n s i s.tokens.size
    let stop ← afterInitializer s next
    if s.isAt stop .comma then declarators n s (stop + 1) else return s

def isParameterList (s : Stream) (i j : Nat) (t : Token) : Option Bool := do
  if s.isAt (j + 1) .arrow then return true
  else
    match ← previous s i with
    | none => return false
    | some p =>
      let twoBefore := (← previous s (i - 1)).map Token.kind
      match p.kind with
      | .keyword .«catch» | .keyword .function => return true
      | .asterisk => return twoBefore = some (.keyword .function)
      | .identifier =>
        return p.role = some .methodName ||
          (p.role = some .declaration &&
            (twoBefore = some (.keyword .function) || twoBefore = some .asterisk))
      | _ =>
        return (t.context = .object || t.context = .classBody) &&
          s.tokens[j + 1]?.any fun b => b.kind = .openBrace && b.group = some .block

def site (n : Nat) (s : Stream) (i : Nat) : Option Stream := do
  let t ← s.tokens[i]?
  match t.kind with
  | .openParen =>
    match t.pair with
    | some j => if ← isParameterList s i j t then list n s (i + 1) j else return s
    | none => return s
  | .identifier =>
    if t.role = some .reference && s.isAt (i + 1) .arrow then
      write s i fun t => { t with role := some .declaration }
    else return s
  | .keyword word => if word.declaresVariables then declarators n s (i + 1) else return s
  | _ => return s

end Stream.InPlace

/-- Roles by position and then the marks of the binding sites, both in the order of the tokens. No walk calls itself
more than `n` times, one call inside another. -/
def Stream.classify? (s : Stream) (n : Nat) : Option Stream := do
  let s ← (List.range s.tokens.size).foldlM InPlace.assign s
  (List.range s.tokens.size).foldlM (InPlace.site n) s

end ModuleLowering
