import ModuleLowering.Proofs.Scan.Escapes
import ModuleLowering.Proofs.Scan.Grammar

/-!
Tags on the stack. Tags and children are opened and closed only by the readers of markup, so a closing tag stands
directly on the children that it closes, and no source is refused for a closing tag without them.
-/

namespace ModuleLowering

open Text

theorem Region.admits_of_code {region : Region} (hcode : region.isJsx = false) {kind : Kind}
    (hk : kind.isStructural = false) (htext : kind ≠ .jsxText) : region.admits kind := by
  cases region with
  | jsxTag | jsxChildren => cases hcode
  | _ => simp [admits, hk, htext]

def Effect.Suits (kind : Kind) (fs : List Frame) : Effect → Prop
  | .stays => (frameContext fs).admits kind
  | .asks | .answers | .opensBrace => inMarkup fs = false
  | .opens region => region = .jsxExpr ↔ inMarkup fs
  | .beginsTag closing => closing → ∃ gs, fs = .children :: gs
  | _ => True

namespace Lexeme

variable {start : Nat} {c : Char} {rest : List Char} {l : Lexeme} {fs : List Frame}

theorem TagReading.suits (h : TagReading start c rest l) (closing : Bool) (fs : List Frame) :
    l.effect.Suits l.kind (.tag closing :: fs) := by
  cases h with
  | greater | slashGreater => trivial
  | openBrace => exact ⟨fun _ => rfl, fun _ => rfl⟩
  | less => nofun
  | _ => rfl

theorem ChildReading.suits (h : ChildReading c rest l) (fs : List Frame) :
    l.effect.Suits l.kind (.children :: fs) := by
  cases h with
  | lessSlash => exact fun _ => ⟨fs, rfl⟩
  | less => nofun
  | openBrace => exact ⟨fun _ => rfl, fun _ => rfl⟩
  | text => rfl

theorem wordKind_ne_jsxText (previous : Option Token) (word : String) : wordKind previous word ≠ .jsxText := by
  rcases wordKind_cases previous word with hk | ⟨_, _, hk⟩ <;> rw [hk] <;> simp

section

variable (hcode : (frameContext fs).isJsx = false) (hout : inMarkup fs = false)
include hcode hout

omit hcode in
theorem opens_suits {region : Region} (hregion : region ≠ .jsxExpr) : region = .jsxExpr ↔ inMarkup fs := by
  simp [hregion, hout]

theorem ChunkReading.suits {head : Bool} (h : ChunkReading rest head l) : l.effect.Suits l.kind fs := by
  cases h with
  | template => exact Region.admits_of_code hcode rfl (by simp)
  | head => exact opens_suits hout (by simp)
  | tail | middle => trivial

theorem CodeReading.suits {previous : Option Token} {inSubstitution : Bool}
    (h : CodeReading previous inSubstitution start c rest l) : l.effect.Suits l.kind fs := by
  cases h with
  | chunk _ _ h => exact h.suits hcode hout
  | openBrace | question | colon => exact hout
  | openParen | openBracket => exact opens_suits hout (by simp)
  | closeBrace | closeParen | closeBracket => trivial
  | tag => nofun
  | word => exact Region.admits_of_code hcode (isStructural_wordKind _ _) (wordKind_ne_jsxText _ _)
  | @punctuator _ _ _ kind h =>
    have hkind : kind ≠ .jsxText := of_punctuator? (P := fun kind => kind ≠ .jsxText) (by decide) h
    exact Region.admits_of_code hcode (isStructural_punctuator h) hkind
  | string | number | privateName | regex => exact Region.admits_of_code hcode rfl (by simp)

end

end Lexeme

/-- Every closing tag is directly on the children of an element, and every group is one of brackets or of a
substitution. -/
def WellStacked : List Frame → Prop
  | [] => True
  | .group region _ _ :: fs => region.isJsx = false ∧ WellStacked fs
  | .tag true :: fs => (∃ gs, fs = .children :: gs) ∧ WellStacked fs
  | .tag false :: fs | .children :: fs => WellStacked fs

theorem WellStacked.isJsx_frameContext {fs : List Frame} (h : WellStacked fs) (hout : inMarkup fs = false) :
    (frameContext fs).isJsx = false := by
  cases fs with
  | nil => rfl
  | cons f fs =>
    cases f with
    | group => exact h.1
    | tag | children => cases hout

theorem WellStacked.isJsx_iff {fs : List Frame} (h : WellStacked fs) : (frameContext fs).isJsx ↔ inMarkup fs := by
  refine ⟨fun hjsx => ?_, isJsx_of_inMarkup⟩
  cases hin : inMarkup fs with
  | true => rfl
  | false =>
    rw [h.isJsx_frameContext hin] at hjsx
    cases hjsx

theorem WellStacked.tail {f : Frame} {fs : List Frame} (h : WellStacked (f :: fs)) : WellStacked fs := by
  cases f with
  | group => exact h.2
  | tag closing =>
    cases closing with
    | true => exact h.2
    | false => exact h
  | children => exact h

theorem WellStacked.children_of_tag {above below : List Frame} (h : WellStacked (above ++ .tag true :: below)) :
    ∃ fs, below = .children :: fs := by
  induction above with
  | nil => exact h.1
  | cons f above ih => exact ih h.tail

theorem Scanner.lexeme_suits {s : Scanner} {c : Char} {rest : List Char} {l : Lexeme} (h : s.lexeme c rest = .ok l)
    (hs : WellStacked s.nesting.frames) : l.effect.Suits l.kind s.nesting.frames := by
  cases reads_of_lexeme h with
  | code hout h => exact h.suits (hs.isJsx_frameContext hout) hout
  | tag hframes h =>
    rw [hframes]
    exact h.suits _ _
  | child hframes h =>
    rw [hframes]
    exact h.suits _

structure Suits (kind : Kind) (fs gs : List Frame) : Prop where
  plain : gs = fs → kind.isStructural = false → (frameContext fs).admits kind
  braces : ∀ region opener waiting, gs = .group region opener waiting :: fs → (region = .jsxExpr ↔ inMarkup fs)
  closing : gs = .tag true :: fs → ∃ hs, fs = .children :: hs

namespace Suits

variable {kind : Kind} {fs gs : List Frame}

theorem of_length_le (h : gs.length ≤ fs.length)
    (hplain : gs = fs → kind.isStructural = false → (frameContext fs).admits kind) : Suits kind fs gs where
  plain := hplain
  braces _ _ _ heq := by
    rw [heq, List.length_cons] at h
    omega
  closing heq := by
    rw [heq, List.length_cons] at h
    omega

theorem of_length_lt (h : gs.length < fs.length) : Suits kind fs gs :=
  .of_length_le (Nat.le_of_lt h) fun heq => absurd (congrArg List.length heq) (Nat.ne_of_lt h)

theorem of_group {region : Region} {opener waiting : Nat} (h : region = .jsxExpr ↔ inMarkup fs) :
    Suits kind fs (.group region opener waiting :: fs) where
  plain heq := absurd heq (List.cons_ne_self _ _)
  braces _ _ _ heq := by
    cases heq
    exact h
  closing := nofun

theorem of_tag {closing : Bool} (h : closing → ∃ hs, fs = .children :: hs) : Suits kind fs (.tag closing :: fs) where
  plain heq := absurd heq (List.cons_ne_self _ _)
  braces := nofun
  closing heq := by
    cases heq
    exact h rfl

end Suits

namespace Nesting

theorem braceRegion_ne_jsxExpr (n : Nesting) (previous : Option Token) : n.braceRegion previous ≠ .jsxExpr := by
  unfold braceRegion
  dsimp only
  split <;> (repeat' split) <;> decide

theorem brace_ne_jsxExpr (n : Nesting) (previous : Option Token) : (n.brace previous).2 ≠ .jsxExpr := by
  unfold brace
  split
  · nofun
  · exact n.braceRegion_ne_jsxExpr previous

theorem placeEffect_suits {n : Nesting} {previous : Option Token} {kind : Kind} {effect : Effect} {index : Nat}
    {p : Place} (h : n.placeEffect previous kind index effect = .ok p) (hfits : effect.Fits kind n.frames)
    (hsuits : effect.Suits kind n.frames) (hn : WellStacked n.frames) : Suits kind n.frames p.after.frames := by
  cases effect with
  | stays =>
    cases h
    exact .of_length_le (Nat.le_refl _) fun _ _ => hsuits
  | asks =>
    cases h
    obtain rfl : kind = .question := hfits
    exact .of_length_le (Nat.le_refl _) fun _ hk => Region.admits_of_code (hn.isJsx_frameContext hsuits) hk (by decide)
  | answers =>
    cases h
    obtain rfl : kind = .colon := hfits
    exact .of_length_le (Nat.le_refl _) fun _ hk => Region.admits_of_code (hn.isJsx_frameContext hsuits) hk (by decide)
  | opensBrace =>
    have hframes := (n.brace_frames previous).1
    have hregion := n.brace_ne_jsxExpr previous
    unfold placeEffect at h
    dsimp only at h
    generalize n.brace previous = b at hframes hregion h
    obtain ⟨around, region⟩ := b
    cases h
    dsimp only at hframes hregion
    simp only [enter, hframes]
    have hout : inMarkup n.frames = false := hsuits
    exact .of_group ⟨fun heq => absurd heq hregion, fun hin => by rw [hout] at hin; cases hin⟩
  | opens region =>
    cases h
    exact .of_group hsuits
  | closes =>
    obtain ⟨region, opener, waiting, fs, hfs, hcloser, rfl, hexit⟩ := close_cases h
    rw [hfs, hexit]
    exact .of_length_lt (Nat.lt_succ_self _)
  | leaves =>
    cases h
    obtain ⟨opener, waiting, gs, hfs⟩ := frames_of_templateExpr hfits.2
    simp only [exit, hfs]
    exact .of_length_lt (Nat.lt_succ_self _)
  | reenters =>
    cases h
    obtain ⟨opener, waiting, gs, hfs⟩ := frames_of_templateExpr hfits.2
    obtain rfl : kind = .templateMiddle := hfits.1
    simp only [exit, enter, hfs]
    exact .of_length_le (Nat.le_refl _) fun _ hk => by cases hk
  | beginsTag closing =>
    cases h
    exact .of_tag hsuits
  | endsTag =>
    obtain ⟨_, closing, gs, hfs⟩ := hfits
    obtain ⟨after, hafter, rfl⟩ := map_eq_ok_iff.1 h
    dsimp only
    rcases endTag_cases hafter hfs with ⟨rfl, hchildren⟩ | ⟨rfl, hchildren⟩
    · rw [hfs, hchildren]
      exact .of_length_le (Nat.le_refl _) fun heq => by cases heq
    · rw [hfs, hchildren]
      exact .of_length_lt (Nat.lt_add_of_pos_right Nat.two_pos)
  | endsEmptyTag =>
    obtain ⟨_, closing, gs, hfs⟩ := hfits
    obtain ⟨after, hafter, rfl⟩ := map_eq_ok_iff.1 h
    obtain ⟨rfl, hrest⟩ := endEmptyTag_cases hafter hfs
    rw [hfs, hrest]
    exact .of_length_lt (Nat.lt_succ_self _)

theorem place_suits {n : Nesting} {previous : Option Token} {kind : Kind} {effect : Effect} {index : Nat} {p : Place}
    (h : n.place previous kind effect index = .ok p) (hfits : effect.Fits kind n.frames)
    (hsuits : effect.Suits kind n.frames) (hn : WellStacked n.frames) : Suits kind n.frames p.after.frames := by
  obtain ⟨q, hq, h⟩ := bind_eq_ok_iff.1 h
  cases h
  rw [← n.settleClass_frames previous kind] at hfits hsuits hn ⊢
  rw [awaitClass_frames]
  exact placeEffect_suits hq hfits hsuits hn

end Nesting

theorem Moves.wellStacked {index : Nat} {t : Token} {fs gs : List Frame} (h : Moves index t fs gs)
    (hsuits : Suits t.kind fs gs) (hfs : WellStacked fs) : WellStacked gs := by
  cases h with
  | stays => exact hfs
  | opens region _ hk => exact ⟨Region.isJsx_eq_false_of_opens hk, hfs⟩
  | closes | leaves => exact hfs.2
  | reenters => exact ⟨rfl, hfs.2⟩
  | beginsTag closing =>
    cases closing with
    | true => exact ⟨hsuits.closing rfl, hfs⟩
    | false => exact hfs
  | endsOpeningTag | endsEmptyElement => exact hfs
  | endsElement => exact hfs.2

namespace Scanner

theorem step_suits {s t : Scanner} (h : s.step = .ok (t, true)) (hs : WellStacked s.nesting.frames) :
    ∃ u, t.tokens = record s.tokens u ∧ Moves s.tokens.size u s.nesting.frames t.nesting.frames ∧
      Suits u.kind s.nesting.frames t.nesting.frames := by
  obtain ⟨gap, _, ⟨hmore, _⟩ | ⟨_, c, rest, l, p, _, hl, hp, rfl⟩⟩ := step_cases h
  · cases hmore
  · have hfits := lexeme_fits (s := s.advance gap.length) hl
    have hsuits := lexeme_suits (s := s.advance gap.length) hl hs
    exact ⟨(s.advance gap.length).token gap.lineBreak c rest l p, push_tokens _ _ _ _ _ _,
      Nesting.place_moves hp hfits rfl rfl rfl rfl rfl, Nesting.place_suits hp hfits hsuits hs⟩

theorem wellStacked_step {s t : Scanner} (hs : WellStacked s.nesting.frames) (h : s.step = .ok (t, true)) :
    WellStacked t.nesting.frames := by
  obtain ⟨u, _, hmoves, hsuits⟩ := step_suits h hs
  exact hmoves.wellStacked hsuits hs

theorem Steps.wellStacked {source : List Char} {n : Nat} {s : Scanner} (h : Steps (start source) n s) :
    WellStacked s.nesting.frames :=
  h.induction (P := fun s => WellStacked s.nesting.frames) (fun _ _ => wellStacked_step) trivial

end Scanner

namespace Nesting

theorem endTag_ne_error {n : Nesting} (hn : WellStacked n.frames) {e : LexicalFault} : n.endTag ≠ .error e := by
  unfold endTag
  split
  · nofun
  · rename_i fs hnot hfs
    rw [hfs] at hn
    obtain ⟨gs, rfl⟩ := hn.1
    exact absurd rfl (hnot gs)
  · nofun

theorem place_ne_error {n : Nesting} (hn : WellStacked n.frames) {previous : Option Token} {kind : Kind}
    {effect : Effect} {index : Nat} : n.place previous kind effect index ≠ .error .unexpectedClosingTag := by
  intro h
  rcases bind_eq_error_iff.1 h with h | ⟨_, _, h⟩
  · cases effect with
    | closes =>
      unfold placeEffect close at h
      dsimp only at h
      split at h
      · split at h <;> cases h
      · cases h
    | endsTag =>
      have herror := map_eq_error_iff.1 h
      exact endTag_ne_error (by rwa [settleClass_frames]) herror
    | endsEmptyTag =>
      have herror := map_eq_error_iff.1 h
      unfold endEmptyTag at herror
      split at herror <;> cases herror
    | _ => cases h
  · cases h

end Nesting

theorem Stream.fault_of_read {source : List Char} {e : ScanError} (h : Stream.read source = .error (.rejected e)) :
    e.fault ≠ .unexpectedClosingTag := by
  rcases failure_of_read h with ⟨n, s, hsteps, hstep⟩ | ⟨_, _, _, _, heq⟩
  · have hfails := Scanner.failsWithin_step (Q := (· ≠ .unexpectedClosingTag)) (fun _ => id) (s := s) ?_
    · exact ((hfails _ hstep).2 e rfl).1
    · rintro kind effect _ hplace rfl
      exact Nesting.place_ne_error hsteps.wellStacked hplace
  · cases heq
    simp

theorem append_ne_of_getElem? {text middle rest whole : String} (n : Nat) (hlength : n < text.toList.length)
    (hne : text.toList[n]? ≠ whole.toList[n]?) : text ++ middle ++ rest ≠ whole := by
  rintro rfl
  rw [String.append_assoc, String.toList_append, List.getElem?_append_left hlength] at hne
  exact hne rfl

theorem LexicalFault.eq_of_message {fault : LexicalFault} (h : fault.message = "unexpected JSX closing tag") :
    fault = .unexpectedClosingTag := by
  cases fault with
  | unexpectedClosingTag => rfl
  -- The character behind "unexpected " tells these messages apart, whatever character they name.
  | unexpectedCharacter | unexpectedInTag | unexpectedCloser =>
    exact absurd h (append_ne_of_getElem? 11 (by decide) (by decide))
  | unclosed region => cases region <;> revert h <;> decide
  | _ => revert h; decide

end ModuleLowering
