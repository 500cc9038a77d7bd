import ModuleLowering.Text.Bytes

/-!
Lines and columns. A line starts at offset zero and after every line feed; columns count characters
and both counts begin at one. They are unbounded: words of 32 bits hold them for a text of fewer than
`2 ^ 32 - 1` bytes, and what becomes of them in a longer one is left open.
-/

namespace ModuleLowering.Text

structure Location where
  line : Nat
  column : Nat
  deriving DecidableEq, Inhabited

def Location.render (l : Location) : String := s!"{l.line}:{l.column}"

def lineStartsFrom (offset : Nat) : List Char → List Nat
  | [] => []
  | c :: cs =>
    let next := offset + c.utf8Size
    if c = '\n' then next :: lineStartsFrom next cs else lineStartsFrom next cs

def lineStarts (source : List Char) : List Nat := 0 :: lineStartsFrom 0 source

def lineCount (source : List Char) : Nat := (lineStarts source).length

/-- The line and column of an offset. An offset past the end stands for the end, and one inside a
character for the first column of its line. -/
def location (source : List Char) (offset : Nat) : Location :=
  let pos := min offset (byteLength source)
  let begun := (lineStarts source).takeWhile (· ≤ pos)
  { line := begun.length
    column := ((slice? source (begun.getLastD 0) pos).getD []).length + 1 }

end ModuleLowering.Text
