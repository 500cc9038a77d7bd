import ModuleLowering.Lexeme.Gap
import ModuleLowering.Nesting.Place

/-!
From text to tokens. One step reads the gap before a token and the token itself; every step leaves a
shorter text, so reading ends. Roles are not yet known here.
-/

namespace ModuleLowering

open Text

structure Scanner where
  offset : Nat
  rest : List Char
  tokens : Array Token
  nesting : Nesting

namespace Scanner

def start (source : List Char) : Scanner :=
  let n := Gap.hashbangLength source
  ⟨byteLength (source.take n), source.drop n, #[], .empty⟩

def advance (s : Scanner) (n : Nat) : Scanner :=
  { s with offset := s.offset + byteLength (s.rest.take n), rest := s.rest.drop n }

/-- The gap before the next token. Between JSX tags there is none: white space is text there. -/
def gap (s : Scanner) : Except (Failure ScanError) Gap :=
  match s.nesting.frames with
  | .children :: _ => .ok .empty
  | _ =>
    match Gap.read s.rest with
    | .ok gap => .ok gap
    | .error n => reject .unterminatedComment (s.advance n).offset

def lexeme (s : Scanner) (c : Char) (rest : List Char) : Except (Failure ScanError) Lexeme :=
  match s.nesting.frames with
  | .tag _ :: _ => Lexeme.ofTag s.offset c rest
  | .children :: _ => .ok (Lexeme.ofChild c rest)
  | _ => Lexeme.ofCode s.tokens.back? (s.nesting.context = .templateExpr) s.offset c rest

def atEnd (s : Scanner) : Except (Failure ScanError) Unit :=
  match s.nesting.frames with
  | .tag _ :: _ => reject .unterminatedJsxTag s.offset
  | .children :: _ => reject .unterminatedJsxElement s.offset
  | _ => .ok ()

def record (tokens : Array Token) (t : Token) : Array Token :=
  match t.pair with
  | none => tokens.push t
  | some opener => (tokens.modify opener fun o => { o with pair := some tokens.size }).push t

def push (s : Scanner) (lineBreak : Bool) (c : Char) (rest : List Char) (lexeme : Lexeme)
    (place : Place) : Scanner :=
  let text := c :: rest.take lexeme.extra
  let token : Token :=
    { kind := lexeme.kind, start := s.offset, text := String.ofList text
      depth := place.around.depth, context := place.around.context
      group := place.group, pair := place.pair, lineBreak, role := none }
  { offset := s.offset + byteLength text, rest := rest.drop lexeme.extra
    tokens := record s.tokens token, nesting := place.after }

def step (s : Scanner) : Except (Failure ScanError) (Scanner × Bool) := do
  let gap ← s.gap
  let s := s.advance gap.length
  match s.rest with
  | [] => s.atEnd; return (s, false)
  | c :: rest =>
    let lexeme ← s.lexeme c rest
    match s.nesting.place s.tokens.back? lexeme.kind lexeme.effect s.tokens.size with
    | .error fault => reject fault s.offset
    | .ok place => return (s.push gap.lineBreak c rest lexeme place, true)

theorem rest_length_lt_of_step {s t : Scanner} (h : s.step = .ok (t, true)) :
    t.rest.length < s.rest.length := by
  simp only [step, bind, Except.bind, pure, Except.pure] at h
  split at h
  · cases h
  · rename_i gap _
    split at h
    · split at h <;> cases h
    · rename_i c rest hrest
      have hle : (s.advance gap.length).rest.length ≤ s.rest.length := by simp [advance]
      rw [hrest, List.length_cons] at hle
      split at h
      · cases h
      · split at h
        · cases h
        · cases h
          simp only [push, List.length_drop]
          omega

def run (s : Scanner) : Except (Failure ScanError) Scanner :=
  match _h : s.step with
  | .error e => .error e
  | .ok (t, false) => .ok t
  | .ok (t, true) => t.run
termination_by s.rest.length
decreasing_by exact rest_length_lt_of_step ‹_›

end Scanner

def Stream.read (source : List Char) : Except (Failure ScanError) Stream := do
  let s ← (Scanner.start source).run
  let stop := byteLength source
  match s.nesting.frames with
  | .group region opener _ :: _ =>
    reject (.unclosed region) ((s.tokens[opener]?.map (·.start)).getD stop)
  | _ => return ⟨s.tokens, stop⟩

end ModuleLowering
