import ModuleLowering.Proofs.Scan.Brackets

namespace ModuleLowering

namespace Nesting

theorem place_brace {n : Nesting} {previous : Option Token} {effect : Effect} {index : Nat} {p : Place}
    (h : n.place previous .openBrace effect index = .ok p) (hfits : effect.Fits .openBrace n.frames)
    (hcode : p.around.context.isJsx = false) :
    p.group = some .classBody ∨
      ∃ m : Nesting, m.context = p.around.context ∧ p.group = some (m.braceRegion previous) := by
  obtain ⟨q, hq, h⟩ := bind_eq_ok_iff.1 h
  cases h
  dsimp only at hcode ⊢
  rw [← n.settleClass_frames previous .openBrace] at hfits
  generalize n.settleClass previous .openBrace = m at hq hfits
  cases effect with
  | opensBrace =>
    unfold placeEffect brace at hq
    dsimp only at hq
    split at hq
    · cases hq
      exact .inl rfl
    · cases hq
      exact .inr ⟨m, rfl, rfl⟩
  | opens region =>
    cases hq
    have hjsx : m.context.isJsx = true := (hfits.2.2 rfl).1
    rw [hjsx] at hcode
    cases hcode
  | closes =>
    obtain ⟨region, _, _, _, _, hcloser, _⟩ := close_cases hq
    cases region <;> cases hcloser
  | beginsTag closing => cases closing <;> cases hfits
  | leaves | reenters | endsTag | endsEmptyTag => cases hfits.1
  | stays | asks | answers => cases hfits

end Nesting

def BraceFollows (a b : Token) : Prop :=
  b.kind = .openBrace → b.context.isJsx = false →
    b.group = some .classBody ∨
      ∃ n : Nesting, n.context = b.context ∧ b.group = some (n.braceRegion (some a))

theorem BraceFollows.block {a b : Token} (h : BraceFollows a b) (ha : a.kind = .closeParen)
    (hb : b.kind = .openBrace) (hcode : b.context.isJsx = false) :
    b.group = some .classBody ∨ b.group = some .block := by
  refine (h hb hcode).imp_right fun ⟨n, _, hgroup⟩ => ?_
  rw [hgroup, Nesting.braceRegion, Option.map_some, ha]

theorem Scanner.step_brace {s t : Scanner} (h : s.step = .ok (t, true)) :
    ∃ u, t.tokens = record s.tokens u ∧ ∀ a, s.tokens.back? = some a → BraceFollows a u := by
  obtain ⟨gap, _, ⟨hmore, _⟩ | ⟨_, c, rest, l, p, _, hl, hp, rfl⟩⟩ := step_cases h
  · cases hmore
  · refine ⟨_, push_tokens _ _ _ _ _ _, fun a ha hkind hcode => ?_⟩
    rw [ha] at hp
    have hfits := lexeme_fits (s := s.advance gap.length) hl
    change l.kind = .openBrace at hkind
    rw [hkind] at hp hfits
    exact Nesting.place_brace hp hfits hcode

theorem Stream.braceFollows_of_read {source : List Char} {s : Stream} (h : Stream.read source = .ok s) :
    ∀ i a b, s.tokens[i]? = some a → s.tokens[i + 1]? = some b → BraceFollows a b := by
  obtain ⟨t, ht, _, rfl⟩ := Stream.read_eq_ok h
  refine (Scanner.run_induction (P := fun u => ∀ i a b, u.tokens[i]? = some a →
    u.tokens[i + 1]? = some b → BraceFollows a b) ?_ ?_ ht).1
  · intro u v more hu hstep i a b ha hb
    cases more with
    | false =>
      rw [(Scanner.step_end hstep).1] at ha hb
      exact hu i a b ha hb
    | true =>
      obtain ⟨w, hw, hfollows⟩ := Scanner.step_brace hstep
      rw [hw] at ha hb
      have hlt := lt_size_of_getElem? hb
      rw [Bracketed.size_record] at hlt
      obtain ⟨o, ho, hao⟩ := exists_of_getElem?_record ha (by omega)
      have hregion (n : Nesting) : n.braceRegion (some a) = n.braceRegion (some o) := by rw [hao]; rfl
      by_cases hi : i + 1 = u.tokens.size
      · rw [getElem?_record, if_pos hi] at hb
        cases hb
        have hback : u.tokens.back? = some o := by rw [Array.back?, ← hi]; exact ho
        simpa only [BraceFollows, hregion] using hfollows o hback
      · obtain ⟨q, hq, hbq⟩ := exists_of_getElem?_record hb hi
        rw [hbq]
        simpa only [BraceFollows, hregion] using hu i o q ho hq
  · intro i a b ha
    simp [Scanner.start] at ha

end ModuleLowering
