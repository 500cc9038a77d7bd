import ModuleLowering.Text.Span

/-!
Edits: replacements of spans of a text. Text outside the edited spans is copied as it is, and edits of
equal spans keep their order.
-/

namespace ModuleLowering.Text

structure Edit where
  span : Span
  text : String
  deriving DecidableEq

def Edit.le (a b : Edit) : Bool :=
  a.span.start < b.span.start || (a.span.start == b.span.start && a.span.stop ≤ b.span.stop)

def splice (pos : Nat) (rest : List Char) : List Edit → List Char
  | [] => rest
  | e :: es =>
    let kept := e.span.start - pos
    let removed := e.span.stop - (pos + kept)
    takeBytes kept rest ++ e.text.toList ++
      splice (pos + kept + removed) (dropBytes removed (dropBytes kept rest)) es

def applyEdits (source : List Char) (edits : List Edit) : List Char :=
  splice 0 source (edits.mergeSort Edit.le)

@[simp] theorem applyEdits_nil (source : List Char) : applyEdits source [] = source := by
  simp [applyEdits, splice]

end ModuleLowering.Text
