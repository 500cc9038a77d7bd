import ModuleLowering.Text.Bytes

/-!
Spans: half-open ranges of byte offsets into one text. The offsets are unbounded, as the lines and
columns of `Location` are, and fit into 32 bits under the same condition.
-/

namespace ModuleLowering.Text

structure Span where
  start : Nat
  stop : Nat
  deriving DecidableEq, Inhabited

namespace Span

def point (offset : Nat) : Span := ⟨offset, offset⟩

def length (s : Span) : Nat := s.stop - s.start

def isEmpty (s : Span) : Bool := s.start == s.stop

def cover (s t : Span) : Span := ⟨min s.start t.start, max s.stop t.stop⟩

def text (s : Span) (source : List Char) : List Char :=
  (slice? source s.start s.stop).getD []

end Span

end ModuleLowering.Text
