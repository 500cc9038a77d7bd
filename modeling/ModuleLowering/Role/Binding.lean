import ModuleLowering.Role.Position
import ModuleLowering.Role.Walk
import ModuleLowering.Token.Scan

/-!
Binding sites: parameter lists, `catch` clauses, the single parameter of an arrow function, and
declarators. The names bound there become declarations and the braces there become patterns.
-/

namespace ModuleLowering

inductive Mark
  | target (i : Nat)
  | name (i : Nat)
  | pattern (opener closer : Nat)

namespace Stream

mutual

def targetMarks (s : Stream) (i stop : Nat) : List Mark :=
  if i < stop ∧ i < s.tokens.size then
    match s.kind? i with
    | some .ellipsis => s.targetMarks (i + 1) stop
    | some .identifier => [.target i]
    | some .openBrace =>
      match s.closer? i with
      | some j => .pattern i j :: s.objectMarks (i + 1) j
      | none => []
    | some .openBracket =>
      match s.closer? i with
      | some j => s.listMarks (i + 1) j
      | none => []
    | _ => []
  else []
termination_by 2 * (s.tokens.size - i)

def listMarks (s : Stream) (i stop : Nat) : List Mark :=
  if i < stop ∧ i < s.tokens.size then
    s.targetMarks i stop ++ s.listMarks (s.nextElement i stop) stop
  else []
termination_by 2 * (s.tokens.size - i) + 1
decreasing_by
  · omega
  · have := s.lt_nextElement (show i ≤ stop by omega)
    omega

def objectMarks (s : Stream) (i stop : Nat) : List Mark :=
  if i < stop ∧ i < s.tokens.size then
    let keyEnd := s.afterKey i
    if s.isAt i .ellipsis then
      s.targetMarks (i + 1) stop ++ s.objectMarks (s.nextElement (i + 1) stop) stop
    else if keyEnd < stop ∧ s.isAt keyEnd .colon then
      s.targetMarks (keyEnd + 1) stop ++ s.objectMarks (s.nextElement (keyEnd + 1) stop) stop
    else
      (if s.isAt i .identifier then [.name i] else []) ++
        s.objectMarks (s.skipToComma keyEnd stop + 1) stop
  else []
termination_by 2 * (s.tokens.size - i) + 1
decreasing_by
  · omega
  · have := s.lt_nextElement (show i + 1 ≤ stop by omega)
    omega
  · have := s.lt_afterKey i
    omega
  · have := s.lt_afterKey i
    have := s.lt_nextElement (show s.afterKey i + 1 ≤ stop by omega)
    omega
  · have := s.lt_afterKey i
    have := s.min_le_skipToComma (s.afterKey i) stop
    omega

end

def declaratorMarks (s : Stream) (i : Nat) : List Mark :=
  let stop := s.skipInitializer (s.afterTarget i s.tokens.size)
  if _h : s.isAt stop .comma then s.targetMarks i s.tokens.size ++ s.declaratorMarks (stop + 1)
  else s.targetMarks i s.tokens.size
termination_by s.tokens.size - i
decreasing_by
  have : stop < s.tokens.size := lt_size_of_isAt ‹_›
  have : i ≤ stop := Nat.le_trans (s.le_afterTarget i _) (s.le_skipInitializer _)
  omega

def isParameterList (s : Stream) (i j : Nat) (t : Token) : Bool :=
  let twoBefore := (s.before? (i - 1)).map Token.kind
  s.isAt (j + 1) .arrow ||
    match s.before? i with
    | none => false
    | some p =>
      match p.kind with
      | .keyword .«catch» | .keyword .function => true
      | .asterisk => twoBefore = some (.keyword .function)
      | .identifier =>
        p.role = some .methodName ||
          (p.role = some .declaration &&
            (twoBefore = some (.keyword .function) || twoBefore = some .asterisk))
      | _ =>
        (t.context = .object || t.context = .classBody) &&
          s.tokens[j + 1]?.any fun b => b.kind = .openBrace && b.group = some .block

def siteMarks (s : Stream) (i : Nat) : List Mark :=
  match s.tokens[i]? with
  | none => []
  | some t =>
    match t.kind with
    | .openParen =>
      match t.pair with
      | some j => if s.isParameterList i j t then s.listMarks (i + 1) j else []
      | none => []
    | .identifier => if t.role = some .reference && s.isAt (i + 1) .arrow then [.name i] else []
    | .keyword word => if word.declaresVariables then s.declaratorMarks (i + 1) else []
    | _ => []

def enterPattern (s : Stream) (i : Nat) : Stream :=
  s.update i fun t => if t.context = .object then { t with context := .pattern } else t

def setGroup (s : Stream) (i : Nat) (region : Region) : Stream :=
  s.update i fun t => { t with group := some region }

def mark (s : Stream) : Mark → Stream
  | .target i =>
    s.update i fun t =>
      if t.role = some .reference || t.role = some .shorthand then { t with role := some .declaration }
      else t
  | .name i => s.setRole i .declaration
  | .pattern i j =>
    (s.members (i + 1) j).foldl enterPattern ((s.setGroup i .pattern).setGroup j .pattern)

def markSite (s : Stream) (i : Nat) : Stream := (s.siteMarks i).foldl mark s

def markSites (s : Stream) : Stream := (List.range s.tokens.size).foldl markSite s

end Stream

def scan (source : List Char) : Except (Failure ScanError) Stream :=
  (Stream.read source).map fun s => s.assignRoles.markSites

end ModuleLowering
