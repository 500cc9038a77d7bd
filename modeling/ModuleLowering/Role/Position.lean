import ModuleLowering.Token.Basic

/-!
The role of a name by its position: the tokens next to it and the region around it. Names are
classified from left to right, and a name's role may depend on the roles already given before it.
-/

namespace ModuleLowering

namespace Stream

def classModifiers : List String :=
  ["static", "async", "get", "set", "accessor", "declare", "readonly", "public", "private", "protected",
    "override", "abstract"]

def propertyModifiers : List String := ["async", "get", "set"]

def beginsProperty (s : Stream) : Nat → Bool
  | 0 => false
  | i + 1 =>
    match s.tokens[i]? with
    | none => false
    | some t =>
      match t.kind with
      | .openBrace => t.group = some .object || t.group = some .pattern
      | .comma => true
      | .asterisk => s.beginsProperty i
      | .identifier => t.role = some .modifier
      | _ => false

def beginsLineAfterExpression (s : Stream) (i : Nat) : Bool :=
  s.tokens[i]?.any (·.lineBreak) && (s.before? i).any (·.endsExpression)

def beginsMember (s : Stream) : Nat → Bool
  | 0 => false
  | i + 1 =>
    match s.tokens[i]? with
    | none => false
    | some t =>
      match t.kind with
      | .openBrace => t.group = some .classBody
      | .semicolon | .closeBrace => true
      | .asterisk => s.beginsMember i
      | .identifier => t.role = some .modifier || s.beginsLineAfterExpression (i + 1)
      | _ => s.beginsLineAfterExpression (i + 1)

def beginsStatement (s : Stream) (i : Nat) : Bool :=
  match s.before? i with
  | none => true
  | some t =>
    match t.kind with
    | .semicolon | .closeBrace => true
    | .openBrace => t.group = some .block
    | _ => s.beginsLineAfterExpression i

def namesProperty (s : Stream) (i : Nat) : Bool :=
  (s.kind? i).any fun kind =>
    kind.isIdentifierName ||
      kind ∈ [.privateIdentifier, .string, .number, .openBracket, .asterisk]

def propertyRole (s : Stream) (i : Nat) (t : Token) : Role :=
  if t.text ∈ propertyModifiers && s.namesProperty (i + 1) then .modifier
  else match s.kind? (i + 1) with
    | some .colon => .propertyKey
    | some .openParen => .methodName
    | some .comma | some .closeBrace => if t.context = .pattern then .declaration else .shorthand
    | some .equals => .declaration
    | _ => .reference

def memberRole (s : Stream) (i : Nat) (t : Token) : Role :=
  if t.text ∈ classModifiers &&
      (s.namesProperty (i + 1) || (t.text = "static" && s.isAt (i + 1) .openBrace)) then .modifier
  else if s.isAt (i + 1) .openParen then .methodName
  else .classMember

def tagRole (s : Stream) (i : Nat) (t : Token) : Role :=
  if !(s.before? i).any fun p => p.kind = .less || p.kind = .lessSlash then .jsxAttribute
  else if s.isAt (i + 1) .dot then .jsxTag
  else if s.isAt (i + 1) .colon || '-' ∈ t.text.toList || t.text.toList.head?.any (·.isLower) then
    .jsxIntrinsic
  else .jsxTag

def followsDeclarator (s : Stream) (i : Nat) : Bool :=
  match (s.before? i).map Token.kind with
  | some (.keyword .function) | some (.keyword .«class») => true
  | some .asterisk => (s.before? (i - 1)).any (·.kind = .keyword .function)
  | _ => false

def followsJump (s : Stream) (i : Nat) (t : Token) : Bool :=
  !t.lineBreak &&
    (s.before? i).any fun p => p.kind = .keyword .«break» || p.kind = .keyword .«continue»

def roleAt (s : Stream) (i : Nat) (t : Token) : Role :=
  if t.kind = .privateIdentifier || (s.before? i).any fun p => p.kind = .dot || p.kind = .questionDot then
    .member
  else if t.context = .jsxTag then s.tagRole i t
  else if s.followsDeclarator i then .declaration
  else if s.followsJump i t then .label
  else if (t.context = .object || t.context = .pattern) && s.beginsProperty i then s.propertyRole i t
  else if t.context = .classBody && s.beginsMember i then s.memberRole i t
  else if t.context.holdsStatements && s.isAt (i + 1) .colon && s.beginsStatement i then .label
  else .reference

def update (s : Stream) (i : Nat) (f : Token → Token) : Stream :=
  { s with tokens := s.tokens.modify i f }

def setRole (s : Stream) (i : Nat) (role : Role) : Stream :=
  s.update i fun t => { t with role := some role }

def assignRole (s : Stream) (i : Nat) : Stream :=
  match s.tokens[i]? with
  | some t => if t.kind.hasRole then s.setRole i (s.roleAt i t) else s
  | none => s

def assignRoles (s : Stream) : Stream := (List.range s.tokens.size).foldl assignRole s

end Stream

end ModuleLowering
