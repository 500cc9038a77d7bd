import ModuleLowering.Proofs.Scan.Brackets
import ModuleLowering.Proofs.Scan.Escapes

namespace ModuleLowering

open Text

def Kind.count? (kind : Kind) (n : Nat) : Option Nat :=
  match kind with
  | openBrace | openParen | openBracket | templateHead => some (n + 1)
  | closeBrace | closeParen | closeBracket | templateTail => if n = 0 then none else some (n - 1)
  | templateMiddle => if n = 0 then none else some n
  | _ => some n

theorem Kind.count?_of_not_isStructural {kind : Kind} (h : kind.isStructural = false) (n : Nat) :
    kind.count? n = some n := by
  cases kind <;> first | rfl | cases h

theorem Region.Opens.count? {region : Region} {kind : Kind} (h : region.Opens kind)
    (hnew : kind ≠ .templateMiddle) (n : Nat) : kind.count? n = some (n + 1) := by
  cases region with
  | topLevel | jsxTag | jsxChildren => cases h
  | templateExpr => rw [Or.resolve_right h hnew]; rfl
  | _ => obtain rfl := h; rfl

theorem Region.count?_of_closer? {region : Region} {kind : Kind} (h : region.closer? = some kind) (n : Nat) :
    kind.count? (n + 1) = some n := by
  cases region <;> cases h <;> rfl

theorem Moves.count? {index : Nat} {t : Token} {fs gs : List Frame} (h : Moves index t fs gs) :
    t.kind.count? (frameDepth fs) = some (frameDepth gs) := by
  cases h with
  | stays hk => exact Kind.count?_of_not_isStructural hk _
  | opens region waiting hk _ _ _ _ hnew => rw [hk.count? hnew, frameDepth_group]
  | closes region opener waiting hk => rw [frameDepth_group, Region.count?_of_closer? hk]
  | leaves _ _ hk => rw [hk, frameDepth_group]; rfl
  | reenters _ _ _ hk => rw [hk, frameDepth_group, frameDepth_group]; rfl
  | beginsTag closing hk => cases closing <;> rw [hk, frameDepth_tag] <;> rfl
  | endsOpeningTag hk => rw [hk, frameDepth_tag, frameDepth_children]; rfl
  | endsElement hk => rw [hk, frameDepth_tag, frameDepth_children]; rfl
  | endsEmptyElement hk => rw [hk, frameDepth_tag]; rfl

namespace Scanner

def count? (s : Scanner) : Option Nat :=
  (s.tokens.toList.map Token.kind).foldlM (fun n kind => kind.count? n) 0

theorem count?_step {s t : Scanner} {more : Bool} (h : s.count? = some s.nesting.depth)
    (hstep : s.step = .ok (t, more)) : t.count? = some t.nesting.depth := by
  cases more with
  | false =>
    obtain ⟨htokens, hnesting⟩ := step_end hstep
    rwa [count?, htokens, hnesting]
  | true =>
    obtain ⟨u, htokens, hmoves⟩ := step_moves hstep
    rw [count?, htokens, map_record Token.kind fun _ _ => rfl, List.foldlM_append]
    change (s.count? >>= _) = _
    rw [h]
    simpa [Nesting.depth, frameDepth] using hmoves.count?

/-- What the scanner relies on without looking: the text from the offset on is a text, counting down is counting
from more than zero, and the openers and partners that it keeps are tokens. -/
structure Safe (source : List Char) (s : Scanner) : Prop where
  split : ∃ read, source = read ++ s.rest ∧ byteLength read = s.offset
  counted : s.count? = some s.nesting.depth
  openers : ∀ region opener waiting, .group region opener waiting ∈ s.nesting.frames → opener < s.tokens.size
  pairs : ∀ t ∈ s.tokens, ∀ j, t.pair = some j → j < s.tokens.size

theorem Steps.safe {source : List Char} {n : Nat} {s : Scanner} (h : Steps (start source) n s) :
    Safe source s := by
  have hbracketed := h.induction (P := fun s => Bracketed s.tokens s.nesting.frames)
    (fun _ _ => bracketed_step) bracketed_empty
  refine ⟨h.placedIn.split, ?_, ?_, ?_⟩
  · exact h.induction (P := fun s => s.count? = some s.nesting.depth) (fun _ _ => count?_step) rfl
  · intro region opener waiting hmem
    obtain ⟨t, ht, _⟩ := hbracketed.opened.depth_lt hmem
    exact lt_size_of_getElem? ht
  · exact fun t ht j => hbracketed.lt_size_of_pair ht

end Scanner

end ModuleLowering
