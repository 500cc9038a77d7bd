import ModuleLowering.Proofs.Scan.Brackets

namespace ModuleLowering

open Text

namespace Nesting

theorem place_congr {n : Nesting} {previous previous' : Option Token}
    (h : previous.map (·.kind) = previous'.map (·.kind)) (kind : Kind) (effect : Effect) (index : Nat) :
    n.place previous kind effect index = n.place previous' kind effect index := by
  have hclass : previous.any (·.kind = .keyword .«class») = previous'.any (·.kind = .keyword .«class») := by
    have hany (o : Option Token) : o.any (·.kind = .keyword .«class») =
        (o.map (·.kind)).any (· = .keyword .«class») := by cases o <;> rfl
    rw [hany, hany, h]
  have hsettle (m : Nesting) : m.settleClass previous kind = m.settleClass previous' kind := by
    rw [settleClass, settleClass, hclass]
  have hregion (m : Nesting) : m.braceRegion previous = m.braceRegion previous' := by
    rw [braceRegion, braceRegion]
    change previous.map Token.kind = previous'.map Token.kind at h
    rw [h]
  have hbrace (m : Nesting) : m.brace previous = m.brace previous' := by rw [brace, brace, hregion]
  unfold place
  rw [hsettle]
  cases effect with
  | opensBrace => simp only [placeEffect, hbrace]
  | _ => rfl

end Nesting

/-- The token at `k`, placed where `n` was open, and what was open after it. -/
inductive Turn (previous : Option Token) (k : Nat) (t : Token) (n : Nesting) : Nesting → Prop
  | intro {effect : Effect} {p : Place} (hfits : effect.Fits t.kind n.frames)
      (hplace : n.place previous t.kind effect k = .ok p) (hmarkup : inMarkup n.frames → t.kind.isJsxPart)
      (hd : t.depth = p.around.depth) (hc : t.context = p.around.context) (hg : t.group = p.group) :
      Turn previous k t n p.after

theorem Turn.congr {previous previous' : Option Token} {k : Nat} {t : Token} {n after : Nesting}
    (h : Turn previous k t n after) (hkind : previous.map (·.kind) = previous'.map (·.kind)) (pair : Option Nat) :
    Turn previous' k { t with pair } n after := by
  cases h with
  | intro hfits hplace hmarkup hd hc hg =>
    exact .intro hfits (Nesting.place_congr hkind .. ▸ hplace) hmarkup hd hc hg

theorem Turn.moves {previous : Option Token} {k : Nat} {t : Token} {n after : Nesting} (h : Turn previous k t n after) :
    ∃ pair, Moves k { t with pair } n.frames after.frames := by
  cases h with
  | @intro _ p hfits hplace _ hd hc hg => exact ⟨p.pair, Nesting.place_moves hplace hfits rfl hd hc hg rfl⟩

theorem Turn.isJsxPart {previous : Option Token} {k : Nat} {t : Token} {n after : Nesting}
    (h : Turn previous k t n after) : inMarkup n.frames → t.kind.isJsxPart := by
  cases h with
  | intro _ _ hmarkup => exact hmarkup

structure History (s : Stream) (n : Nat → Nesting) : Prop where
  start : n 0 = .empty
  turn : ∀ k t, s.tokens[k]? = some t → Turn (s.before? k) k t (n k) (n (k + 1))

theorem map_before?_record {α : Type} (f : Token → α) (hf : ∀ t p, f { t with pair := p } = f t) (tokens : Array Token)
    (t : Token) (stop : Nat) {k : Nat} (hk : k ≤ tokens.size) :
    ((Stream.mk (Scanner.record tokens t) stop).before? k).map f = ((Stream.mk tokens stop).before? k).map f := by
  unfold Stream.before?
  split
  · rfl
  · dsimp only
    rw [getElem?_record, if_neg (by omega)]
    split
    · cases tokens[k - 1]? <;> simp [hf]
    · rfl

theorem kind_before?_record (tokens : Array Token) (t : Token) (stop : Nat) {k : Nat} (hk : k ≤ tokens.size) :
    ((Stream.mk (Scanner.record tokens t) stop).before? k).map (·.kind) =
      ((Stream.mk tokens stop).before? k).map (·.kind) := map_before?_record _ (fun _ _ => rfl) tokens t stop hk

theorem before?_size (tokens : Array Token) (stop : Nat) :
    (Stream.mk tokens stop).before? tokens.size = tokens.back? := by
  unfold Stream.before? Array.back?
  split
  · rename_i hzero
    simp [hzero]
  · rfl

theorem Scanner.history_step {s t : Scanner} (stop : Nat) {n : Nat → Nesting} (h : History ⟨s.tokens, stop⟩ n)
    (hn : n s.tokens.size = s.nesting) (hstep : s.step = .ok (t, true)) :
    ∃ m, History ⟨t.tokens, stop⟩ m ∧ m t.tokens.size = t.nesting := by
  obtain ⟨gap, _, ⟨hmore, _⟩ | ⟨_, c, rest, l, p, _, hl, hp, rfl⟩⟩ := step_cases hstep
  · cases hmore
  · obtain ⟨w, hw⟩ : ∃ w, w = (s.advance gap.length).token gap.lineBreak c rest l p := ⟨_, rfl⟩
    have htokens : ((s.advance gap.length).push gap.lineBreak c rest l p).tokens = record s.tokens w := hw ▸ rfl
    rw [htokens, Bracketed.size_record]
    refine ⟨fun k => if k ≤ s.tokens.size then n k else p.after, ⟨?_, ?_⟩, if_neg (by omega)⟩
    · rw [if_pos (Nat.zero_le _), h.start]
    · intro k u hu
      have hlt := lt_size_of_getElem? hu
      rw [Bracketed.size_record] at hlt
      dsimp only at hu
      by_cases hk : k = s.tokens.size
      · subst hk
        rw [getElem?_record, if_pos rfl] at hu
        cases hu
        rw [if_pos (Nat.le_refl _), if_neg (by omega), hn]
        have hturn : Turn s.tokens.back? s.tokens.size w s.nesting p.after := by
          subst hw
          exact .intro (lexeme_fits (s := s.advance gap.length) hl) hp
            (isJsxPart_of_lexeme (s := s.advance gap.length) hl) rfl rfl rfl
        exact hturn.congr (by rw [kind_before?_record _ _ _ (Nat.le_refl _), before?_size]) w.pair
      · obtain ⟨o, ho, huo⟩ := exists_of_getElem?_record hu hk
        rw [if_pos (by omega), if_pos (by omega), huo]
        exact (h.turn k o ho).congr (kind_before?_record s.tokens w stop (by omega)).symm u.pair

theorem Stream.exists_history {source : List Char} {s : Stream} (h : Stream.read source = .ok s) :
    ∃ n, History s n := by
  obtain ⟨t, ht, _, rfl⟩ := Stream.read_eq_ok h
  have hstart : ∃ n, History ⟨(Scanner.start source).tokens, byteLength source⟩ n ∧
      n (Scanner.start source).tokens.size = (Scanner.start source).nesting :=
    ⟨fun _ => .empty, ⟨rfl, by simp [Scanner.start]⟩, rfl⟩
  have hrun := Scanner.run_induction (P := fun u => ∃ n, History ⟨u.tokens, byteLength source⟩ n ∧
    n u.tokens.size = u.nesting) ?_ hstart ht
  · exact hrun.1.imp fun _ hn => hn.1
  · rintro u v more ⟨n, hn, hlast⟩ hstep
    cases more with
    | false =>
      obtain ⟨htokens, hnesting⟩ := Scanner.step_end hstep
      exact ⟨n, by rwa [htokens], by rwa [htokens, hnesting]⟩
    | true => exact Scanner.history_step _ hn hlast hstep

end ModuleLowering
