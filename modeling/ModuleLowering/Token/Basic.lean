import ModuleLowering.Token.Kind
import ModuleLowering.Text.Span

/-!
Tokens, and the stream of tokens of one source. Places, depths and indices are unbounded: words of 32
bits hold them for a source of fewer than `2 ^ 32 - 1` bytes.
-/

namespace ModuleLowering

open Text

structure Token where
  kind : Kind
  start : Nat
  text : String
  /-- The number of brackets and template substitutions open around the token; a bracket counts with
  what is outside it. -/
  depth : Nat
  context : Region
  /-- For a bracket or a template chunk that opens a substitution, the region it opens or closes. -/
  group : Option Region
  pair : Option Nat
  lineBreak : Bool
  role : Option Role
  deriving DecidableEq

namespace Token

def stop (t : Token) : Nat := t.start + t.text.utf8ByteSize

def span (t : Token) : Span := ⟨t.start, t.stop⟩

theorem start_le_stop (t : Token) : t.start ≤ t.stop := Nat.le_add_right ..

def isWord (t : Token) (word : String) : Bool := t.kind = .identifier && t.text = word

def isTopLevel (t : Token) : Bool := t.depth = 0 && t.context = .topLevel

/-- Whether the token can be the last of an expression, so that a slash after it divides and a line
break after it may end a statement. -/
def endsExpression (t : Token) : Bool :=
  match t.kind with
  | .identifier | .privateIdentifier | .number | .string | .regex | .template | .templateTail
  | .closeParen | .closeBracket | .plusPlus | .minusMinus => true
  | .closeBrace => t.group ≠ some .block && t.group ≠ some .classBody
  | .greater | .slashGreater => t.context = .jsxTag
  | kind => kind.isValueKeyword

/-- For an opening bracket, the index of its partner; `i` is the token's own index. -/
def closer? (t : Token) (i : Nat) : Option Nat := t.pair.filter (i < ·)

theorem lt_of_closer? {t : Token} {i j : Nat} (h : t.closer? i = some j) : i < j := by
  simpa using (Option.filter_eq_some_iff.1 h).2

end Token

structure Stream where
  tokens : Array Token
  stop : Nat

namespace Stream

def kind? (s : Stream) (i : Nat) : Option Kind := s.tokens[i]?.map (·.kind)

def before? (s : Stream) (i : Nat) : Option Token := if i = 0 then none else s.tokens[i - 1]?

def isAt (s : Stream) (i : Nat) (kind : Kind) : Bool := s.kind? i = some kind

def isWordAt (s : Stream) (i : Nat) (word : String) : Bool := s.tokens[i]?.any (·.isWord word)

def offsetAt (s : Stream) (i : Nat) : Nat := (s.tokens[i]?.map (·.start)).getD s.stop

def stopBefore (s : Stream) (i : Nat) : Nat := ((s.before? i).map (·.stop)).getD 0

theorem lt_size_of_isAt {s : Stream} {i : Nat} {kind : Kind} (h : s.isAt i kind = true) :
    i < s.tokens.size := by
  simp only [isAt, kind?, decide_eq_true_eq, Option.map_eq_some_iff] at h
  obtain ⟨t, ht, _⟩ := h
  exact (Array.getElem?_eq_some_iff.1 ht).1

end Stream

end ModuleLowering
