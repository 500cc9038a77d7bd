import ModuleLowering.Proofs.Except
import ModuleLowering.Token.Scan

/-!
What one step of the scanner does, and the induction over a whole run. A property that every step keeps
holds of the tokens that `Stream.read` gives.
-/

namespace ModuleLowering

open Text

namespace Scanner

def token (s : Scanner) (lineBreak : Bool) (c : Char) (rest : List Char) (l : Lexeme) (p : Place) :
    Token :=
  { kind := l.kind, start := s.offset, text := String.ofList (c :: rest.take l.extra)
    depth := p.around.depth, context := p.around.context
    group := p.group, pair := p.pair, lineBreak, role := none }

theorem push_tokens (s : Scanner) (lineBreak : Bool) (c : Char) (rest : List Char) (l : Lexeme) (p : Place) :
    (s.push lineBreak c rest l p).tokens = record s.tokens (s.token lineBreak c rest l p) := rfl

theorem step_cases {s t : Scanner} {more : Bool} (h : s.step = .ok (t, more)) :
    ∃ gap, s.gap = .ok gap ∧
      ((more = false ∧ t = s.advance gap.length ∧ t.rest = [] ∧ t.atEnd = .ok ()) ∨
      (more = true ∧ ∃ c rest l p, (s.advance gap.length).rest = c :: rest ∧
        (s.advance gap.length).lexeme c rest = .ok l ∧
        s.nesting.place s.tokens.back? l.kind l.effect s.tokens.size = .ok p ∧
        t = (s.advance gap.length).push gap.lineBreak c rest l p)) := by
  unfold step at h
  obtain ⟨gap, hgap, h⟩ := bind_eq_ok_iff.1 h
  refine ⟨gap, hgap, ?_⟩
  dsimp only at h
  split at h
  · rename_i hrest
    obtain ⟨_, hend, h⟩ := bind_eq_ok_iff.1 h
    cases h
    exact .inl ⟨rfl, rfl, hrest, hend⟩
  · rename_i c rest hrest
    obtain ⟨l, hl, h⟩ := bind_eq_ok_iff.1 h
    split at h
    · cases h
    · rename_i p hp
      cases h
      exact .inr ⟨rfl, c, rest, l, p, hrest, hl, hp, rfl⟩

theorem run_induction {P : Scanner → Prop} {s t : Scanner}
    (hstep : ∀ s t more, P s → s.step = .ok (t, more) → P t) (hs : P s) (h : s.run = .ok t) :
    P t ∧ t.rest = [] ∧ t.atEnd = .ok () := by
  fun_induction run s with
  | case1 => cases h
  | case2 s u hu =>
    cases h
    obtain ⟨_, _, ⟨_, _, hrest, hend⟩ | ⟨hmore, _⟩⟩ := step_cases hu
    · exact ⟨hstep _ _ _ hs hu, hrest, hend⟩
    · cases hmore
  | case3 s u hu ih => exact ih (hstep _ _ _ hs hu) h

inductive Steps : Scanner → Nat → Scanner → Prop
  | done (s : Scanner) : Steps s 0 s
  | more {s t u : Scanner} {n : Nat} (hstep : s.step = .ok (t, true)) (hsteps : Steps t n u) : Steps s (n + 1) u

theorem Steps.induction {P : Scanner → Prop} {s t : Scanner} {n : Nat}
    (hstep : ∀ s t, P s → s.step = .ok (t, true) → P t) (h : Steps s n t) (hs : P s) : P t := by
  induction h with
  | done => exact hs
  | more hmore _ ih => exact ih (hstep _ _ hs hmore)

theorem Steps.trans {s t u : Scanner} {m n : Nat} (h : Steps s m t) (h' : Steps t n u) : Steps s (m + n) u := by
  induction h with
  | done => rwa [Nat.zero_add]
  | more hstep _ ih =>
    rw [Nat.add_right_comm]
    exact .more hstep (ih h')

theorem run_eq_of_step {s t : Scanner} {more : Bool} (h : s.step = .ok (t, more)) :
    s.run = if more then t.run else .ok t := by
  rw [run]
  split
  all_goals
    rename_i hstep
    rw [h] at hstep
    cases hstep
  · rfl
  · rfl

theorem Steps.run_eq {s u : Scanner} {n : Nat} (h : Steps s n u) : s.run = u.run := by
  induction h with
  | done => rfl
  | more hstep _ ih => rw [run_eq_of_step hstep, if_pos rfl, ih]

def Ends (s : Scanner) (result : Except (Failure ScanError) Scanner) : Prop :=
  (∃ e, s.step = .error e ∧ result = .error e) ∨ ∃ t, s.step = .ok (t, false) ∧ result = .ok t

theorem exists_steps (s : Scanner) : ∃ n t, Steps s n t ∧ t.Ends s.run := by
  fun_induction run s with
  | case1 s e he => exact ⟨0, s, .done s, .inl ⟨e, he, rfl⟩⟩
  | case2 s t ht => exact ⟨0, s, .done s, .inr ⟨t, ht, rfl⟩⟩
  | case3 s t ht ih =>
    obtain ⟨n, u, hsteps, hends⟩ := ih
    exact ⟨n + 1, u, .more ht hsteps, hends⟩

theorem offset_lt_of_step {s t : Scanner} (h : s.step = .ok (t, true)) : s.offset < t.offset := by
  obtain ⟨gap, _, ⟨hmore, _⟩ | ⟨_, c, rest, l, p, _, _, _, rfl⟩⟩ := step_cases h
  · cases hmore
  · have hpos := c.utf8Size_pos
    simp only [push, advance, byteLength_cons]
    omega

theorem Steps.le_offset {s t : Scanner} {n : Nat} (h : Steps s n t) : s.offset + n ≤ t.offset := by
  induction h with
  | done => exact Nat.le_refl _
  | more hstep _ ih =>
    have := offset_lt_of_step hstep
    omega

end Scanner

theorem Stream.read_eq_ok {source : List Char} {s : Stream} (h : Stream.read source = .ok s) :
    ∃ t, (Scanner.start source).run = .ok t ∧ t.nesting.frames = [] ∧
      s = ⟨t.tokens, byteLength source⟩ := by
  unfold Stream.read at h
  obtain ⟨t, ht, h⟩ := bind_eq_ok_iff.1 h
  have hend := (Scanner.run_induction (P := fun _ => True) (fun _ _ _ _ _ => trivial) trivial ht).2.2
  refine ⟨t, ht, ?_⟩
  unfold Scanner.atEnd at hend
  cases hf : t.nesting.frames with
  | nil =>
    simp only [hf] at h
    cases h
    exact ⟨rfl, rfl⟩
  | cons f fs =>
    cases f with
    | group region opener waiting => simp [hf, reject] at h
    | tag closing => simp [hf, reject] at hend
    | children => simp [hf, reject] at hend

end ModuleLowering
