import ModuleLowering.Proofs.Lexeme.Readings
import ModuleLowering.Proofs.Scan.Run

/-!
How a token changes what is open around it. `Moves` lists, kind by kind, what one step of the scanner can do
to the open frames; the structure of the finished stream is read off it.
-/

namespace ModuleLowering

open Text

def frameDepth (fs : List Frame) : Nat := fs.countP Frame.isGroup

def frameContext (fs : List Frame) : Region := (fs.head?.map Frame.region).getD .topLevel

@[simp] theorem frameDepth_group (region : Region) (opener waiting : Nat) (fs : List Frame) :
    frameDepth (.group region opener waiting :: fs) = frameDepth fs + 1 := by
  simp [frameDepth, List.countP_cons, Frame.isGroup]

@[simp] theorem frameDepth_tag (closing : Bool) (fs : List Frame) :
    frameDepth (.tag closing :: fs) = frameDepth fs := by
  simp [frameDepth, Frame.isGroup]

@[simp] theorem frameDepth_children (fs : List Frame) : frameDepth (.children :: fs) = frameDepth fs := by
  simp [frameDepth, Frame.isGroup]

def Kind.isOpener : Kind → Bool
  | openBrace | openParen | openBracket => true
  | _ => false

def Kind.isStructural : Kind → Bool
  | openBrace | closeBrace | openParen | closeParen | openBracket | closeBracket
  | templateHead | templateMiddle | templateTail | lessSlash | slashGreater => true
  | _ => false

def Kind.isSteady (kind : Kind) : Bool := !kind.isStructural && kind ≠ .less && kind ≠ .greater

def Region.Opens : Region → Kind → Prop
  | .paren, kind => kind = .openParen
  | .bracket, kind => kind = .openBracket
  | .templateExpr, kind => kind = .templateHead ∨ kind = .templateMiddle
  | .block, kind | .object, kind | .pattern, kind | .classBody, kind | .jsxExpr, kind => kind = .openBrace
  | .topLevel, _ | .jsxTag, _ | .jsxChildren, _ => False

/-- A token and the open frames before and after it; `index` is the token's own index. -/
inductive Moves (index : Nat) : Token → List Frame → List Frame → Prop
  | stays {t fs} (hk : t.kind.isStructural = false) (hp : t.pair = none) (hd : t.depth = frameDepth fs)
      (hc : t.context = frameContext fs) : Moves index t fs fs
  | opens {t fs} (region : Region) (waiting : Nat) (hk : region.Opens t.kind) (hg : t.group = some region)
      (hp : t.pair = none) (hd : t.depth = frameDepth fs) (hc : t.context = frameContext fs)
      (hnew : t.kind ≠ .templateMiddle) : Moves index t fs (.group region index waiting :: fs)
  | closes {t fs} (region : Region) (opener waiting : Nat) (hk : region.closer? = some t.kind)
      (hg : t.group = some region) (hp : t.pair = some opener) (hd : t.depth = frameDepth fs)
      (hc : t.context = frameContext fs) : Moves index t (.group region opener waiting :: fs) fs
  | leaves {t fs} (opener waiting : Nat) (hk : t.kind = .templateTail) (hp : t.pair = none)
      (hd : t.depth = frameDepth fs) (hc : t.context = frameContext fs) :
      Moves index t (.group .templateExpr opener waiting :: fs) fs
  | reenters {t fs} (opener waiting waiting' : Nat) (hk : t.kind = .templateMiddle)
      (hg : t.group = some .templateExpr) (hp : t.pair = none) (hd : t.depth = frameDepth fs)
      (hc : t.context = frameContext fs) :
      Moves index t (.group .templateExpr opener waiting :: fs) (.group .templateExpr index waiting' :: fs)
  | beginsTag {t fs} (closing : Bool) (hk : t.kind = if closing then .lessSlash else .less)
      (hp : t.pair = none) (hd : t.depth = frameDepth fs) (hc : t.context = frameContext fs) :
      Moves index t fs (.tag closing :: fs)
  | endsOpeningTag {t fs} (hk : t.kind = .greater) (hp : t.pair = none) (hd : t.depth = frameDepth fs)
      (hc : t.context = .jsxTag) : Moves index t (.tag false :: fs) (.children :: fs)
  | endsElement {t fs} (hk : t.kind = .greater) (hp : t.pair = none) (hd : t.depth = frameDepth fs)
      (hc : t.context = .jsxTag) : Moves index t (.tag true :: .children :: fs) fs
  | endsEmptyElement {t fs} (hk : t.kind = .slashGreater) (hp : t.pair = none)
      (hd : t.depth = frameDepth fs) (hc : t.context = .jsxTag) : Moves index t (.tag false :: fs) fs

/-- The kinds of token that can have an effect where these frames are open. -/
def Effect.Fits (kind : Kind) (fs : List Frame) : Effect → Prop
  | .stays => kind.isStructural = false
  | .asks => kind = .question
  | .answers => kind = .colon
  | .opensBrace => kind = .openBrace
  | .opens region =>
    region.Opens kind ∧ kind ≠ .templateMiddle ∧ (kind = .openBrace → (frameContext fs).isJsx ∧ region = .jsxExpr)
  | .closes => kind.isStructural = true
  | .leaves => kind = .templateTail ∧ frameContext fs = .templateExpr
  | .reenters => kind = .templateMiddle ∧ frameContext fs = .templateExpr
  | .beginsTag closing => kind = if closing then .lessSlash else .less
  | .endsTag => kind = .greater ∧ ∃ closing gs, fs = .tag closing :: gs
  | .endsEmptyTag => kind = .slashGreater ∧ ∃ closing gs, fs = .tag closing :: gs

namespace Lexeme

variable {previous : Option Token} {inSubstitution : Bool} {start : Nat} {c : Char} {rest : List Char} {l : Lexeme}
  {fs : List Frame}

theorem isStructural_wordKind (previous : Option Token) (word : String) :
    (wordKind previous word).isStructural = false := by
  rcases wordKind_cases previous word with hk | ⟨_, _, hk⟩ <;> rw [hk] <;> rfl

theorem isStructural_punctuator {text : List Char} {n : Nat} {kind : Kind} (h : punctuator? text = some (n, kind)) :
    kind.isStructural = false :=
  of_punctuator? (P := fun kind => kind.isStructural = false) (by decide) h

theorem ChunkReading.fits {head : Bool} (h : ChunkReading rest head l)
    (hfs : head = false → frameContext fs = .templateExpr) : l.effect.Fits l.kind fs := by
  cases h with
  | template => rfl
  | tail | middle => exact ⟨rfl, hfs rfl⟩
  | head => exact ⟨.inl rfl, nofun, nofun⟩

theorem CodeReading.fits (h : CodeReading previous inSubstitution start c rest l)
    (hfs : inSubstitution = true → frameContext fs = .templateExpr) : l.effect.Fits l.kind fs := by
  cases h with
  | chunk head hhead h => exact h.fits fun hfalse => hfs (hhead hfalse)
  | openParen | openBracket => exact ⟨rfl, nofun, nofun⟩
  | word => exact isStructural_wordKind _ _
  | punctuator h => exact isStructural_punctuator h
  | _ => rfl

theorem TagReading.fits (h : TagReading start c rest l) (closing : Bool) (fs : List Frame) :
    l.effect.Fits l.kind (.tag closing :: fs) := by
  cases h with
  | greater | slashGreater => exact ⟨rfl, closing, fs, rfl⟩
  | openBrace => exact ⟨rfl, nofun, fun _ => ⟨rfl, rfl⟩⟩
  | _ => rfl

theorem ChildReading.fits (h : ChildReading c rest l) (fs : List Frame) : l.effect.Fits l.kind (.children :: fs) := by
  cases h with
  | openBrace => exact ⟨rfl, nofun, fun _ => ⟨rfl, rfl⟩⟩
  | _ => rfl

end Lexeme

def Kind.beginsTag : Kind → Bool
  | less | lessSlash => true
  | _ => false

def Kind.isJsxPart : Kind → Bool
  | less | lessSlash | greater | slashGreater | openBrace | equals | dot | colon | string | identifier | jsxText => true
  | _ => false

theorem Lexeme.TagReading.isJsxPart {start : Nat} {c : Char} {rest : List Char} {l : Lexeme}
    (h : TagReading start c rest l) : l.kind.isJsxPart := by
  cases h <;> rfl

theorem Lexeme.ChildReading.isJsxPart {c : Char} {rest : List Char} {l : Lexeme} (h : ChildReading c rest l) :
    l.kind.isJsxPart := by
  cases h <;> rfl

theorem isJsx_of_inMarkup {fs : List Frame} (h : inMarkup fs) : (frameContext fs).isJsx := by
  rcases inMarkup_cases h with ⟨_, _, rfl⟩ | ⟨_, rfl⟩ <;> rfl

theorem Region.isJsx_eq_false_of_opens {region : Region} {kind : Kind} (h : region.Opens kind) :
    region.isJsx = false := by
  cases region <;> first | rfl | cases h

theorem Scanner.isJsxPart_of_lexeme {s : Scanner} {c : Char} {rest : List Char} {l : Lexeme}
    (h : s.lexeme c rest = .ok l) (hmarkup : inMarkup s.nesting.frames) : l.kind.isJsxPart := by
  cases reads_of_lexeme h with
  | code hout =>
    rw [hout] at hmarkup
    cases hmarkup
  | tag _ h => exact h.isJsxPart
  | child _ h => exact h.isJsxPart

theorem Scanner.lexeme_fits {s : Scanner} {c : Char} {rest : List Char} {l : Lexeme}
    (h : s.lexeme c rest = .ok l) : l.effect.Fits l.kind s.nesting.frames := by
  cases reads_of_lexeme h with
  | code _ h => exact h.fits fun hin => of_decide_eq_true hin
  | tag hframes h =>
    rw [hframes]
    exact h.fits _ _
  | child hframes h =>
    rw [hframes]
    exact h.fits _

namespace Nesting

@[simp] theorem settleClass_frames (n : Nesting) (previous : Option Token) (kind : Kind) :
    (n.settleClass previous kind).frames = n.frames := by
  unfold settleClass
  split <;> rfl

@[simp] theorem awaitClass_frames (n : Nesting) (kind : Kind) : (n.awaitClass kind).frames = n.frames := by
  unfold awaitClass
  split <;> rfl

theorem braceRegion_opens (n : Nesting) (previous : Option Token) :
    (n.braceRegion previous).Opens .openBrace := by
  unfold braceRegion
  dsimp only
  split <;> (try rfl) <;> (repeat' split) <;> rfl

theorem brace_frames (n : Nesting) (previous : Option Token) :
    (n.brace previous).1.frames = n.frames ∧ (n.brace previous).2.Opens .openBrace := by
  unfold brace
  split
  · exact ⟨rfl, rfl⟩
  · exact ⟨rfl, n.braceRegion_opens previous⟩

theorem frames_of_templateExpr {fs : List Frame} (h : frameContext fs = .templateExpr) :
    ∃ opener waiting gs, fs = .group .templateExpr opener waiting :: gs := by
  cases fs with
  | nil => cases h
  | cons f gs =>
    cases f with
    | group region opener waiting =>
      obtain rfl : region = .templateExpr := h
      exact ⟨opener, waiting, gs, rfl⟩
    | tag closing => cases h
    | children => cases h

theorem close_cases {n : Nesting} {kind : Kind} {p : Place} (h : n.close kind = .ok p) :
    ∃ region opener waiting fs, n.frames = .group region opener waiting :: fs ∧ region.closer? = some kind ∧
      p = ⟨n.exit, some region, some opener, n.exit⟩ ∧ n.exit.frames = fs := by
  unfold close at h
  split at h
  · rename_i region opener waiting fs hfs
    split at h
    · rename_i hcloser
      cases h
      exact ⟨region, opener, waiting, fs, hfs, hcloser, rfl, by rw [exit, hfs]⟩
    · cases h
  · cases h

theorem endTag_cases {n after : Nesting} {closing : Bool} {gs : List Frame} (h : n.endTag = .ok after)
    (hfs : n.frames = .tag closing :: gs) :
    (closing = false ∧ after.frames = .children :: gs) ∨ (closing = true ∧ gs = .children :: after.frames) := by
  unfold endTag at h
  rw [hfs] at h
  split at h
  · rename_i fs heq
    cases heq
    cases h
    exact .inr ⟨rfl, rfl⟩
  · cases h
  · rename_i hnot
    cases h
    cases closing with
    | false => exact .inl ⟨rfl, rfl⟩
    | true => exact absurd rfl (hnot gs)

theorem endEmptyTag_cases {n after : Nesting} {closing : Bool} {gs : List Frame}
    (h : n.endEmptyTag = .ok after) (hfs : n.frames = .tag closing :: gs) :
    closing = false ∧ after.frames = gs := by
  unfold endEmptyTag at h
  rw [hfs] at h
  cases closing with
  | true => cases h
  | false =>
    cases h
    exact ⟨rfl, rfl⟩

theorem placeEffect_moves {n : Nesting} {previous : Option Token} {kind : Kind} {effect : Effect}
    {index : Nat} {p : Place} (h : n.placeEffect previous kind index effect = .ok p)
    (hfits : effect.Fits kind n.frames) {t : Token} (hk : t.kind = kind)
    (hd : t.depth = p.around.depth) (hc : t.context = p.around.context) (hg : t.group = p.group)
    (hp : t.pair = p.pair) : Moves index t n.frames p.after.frames := by
  subst hk
  cases effect with
  | stays =>
    cases h
    exact .stays hfits hp hd hc
  | asks =>
    cases h
    exact .stays (by rw [show t.kind = .question from hfits]; rfl) hp hd hc
  | answers =>
    cases h
    exact .stays (by rw [show t.kind = .colon from hfits]; rfl) hp hd hc
  | opensBrace =>
    obtain ⟨hf, ho⟩ := n.brace_frames previous
    unfold placeEffect at h
    dsimp only at h
    generalize n.brace previous = b at hf ho h
    obtain ⟨around, region⟩ := b
    cases h
    dsimp only at hf ho hd hc
    simp only [enter, ← hf]
    exact .opens region _ (by rwa [show t.kind = .openBrace from hfits]) hg hp hd hc
      (by rw [show t.kind = .openBrace from hfits]; nofun)
  | opens region =>
    cases h
    exact .opens region _ hfits.1 hg hp hd hc hfits.2.1
  | closes =>
    obtain ⟨region, opener, waiting, fs, hfs, hcloser, rfl, hexit⟩ := close_cases h
    simp only [Nesting.depth, Nesting.context, hexit] at hd hc
    rw [hfs, hexit]
    exact .closes region opener waiting hcloser hg hp hd hc
  | leaves =>
    cases h
    obtain ⟨hkind, hcontext⟩ := hfits
    obtain ⟨opener, waiting, gs, hfs⟩ := frames_of_templateExpr hcontext
    simp only [exit, hfs] at hd hc ⊢
    exact .leaves opener waiting hkind hp hd hc
  | reenters =>
    cases h
    obtain ⟨hkind, hcontext⟩ := hfits
    obtain ⟨opener, waiting, gs, hfs⟩ := frames_of_templateExpr hcontext
    simp only [exit, enter, hfs] at hd hc ⊢
    exact .reenters opener waiting _ hkind hg hp hd hc
  | beginsTag closing =>
    cases h
    exact .beginsTag closing hfits hp hd hc
  | endsTag =>
    obtain ⟨hkind, closing, gs, hfs⟩ := hfits
    obtain ⟨after, hafter, rfl⟩ := map_eq_ok_iff.1 h
    simp only [Nesting.depth, Nesting.context, hfs] at hd hc
    have hdepth : t.depth = frameDepth gs := hd.trans (frameDepth_tag closing gs)
    rcases endTag_cases hafter hfs with ⟨rfl, hchildren⟩ | ⟨rfl, hchildren⟩
    · rw [hfs, hchildren]
      exact .endsOpeningTag hkind hp hdepth hc
    · rw [hfs, hchildren]
      exact .endsElement hkind hp (by rw [hdepth, hchildren, frameDepth_children]) hc
  | endsEmptyTag =>
    obtain ⟨hkind, closing, gs, hfs⟩ := hfits
    obtain ⟨after, hafter, rfl⟩ := map_eq_ok_iff.1 h
    simp only [Nesting.depth, Nesting.context, hfs] at hd hc
    obtain ⟨rfl, hrest⟩ := endEmptyTag_cases hafter hfs
    rw [hfs, hrest]
    exact .endsEmptyElement hkind hp (hd.trans (frameDepth_tag false gs)) hc

theorem place_moves {n : Nesting} {previous : Option Token} {kind : Kind} {effect : Effect} {index : Nat}
    {p : Place} (h : n.place previous kind effect index = .ok p) (hfits : effect.Fits kind n.frames)
    {t : Token} (hk : t.kind = kind) (hd : t.depth = p.around.depth) (hc : t.context = p.around.context)
    (hg : t.group = p.group) (hp : t.pair = p.pair) : Moves index t n.frames p.after.frames := by
  obtain ⟨q, hq, h⟩ := bind_eq_ok_iff.1 h
  cases h
  rw [← n.settleClass_frames previous kind] at hfits ⊢
  rw [awaitClass_frames]
  exact placeEffect_moves hq hfits hk hd hc hg hp

end Nesting

theorem Scanner.step_moves {s t : Scanner} (h : s.step = .ok (t, true)) :
    ∃ u, t.tokens = record s.tokens u ∧ Moves s.tokens.size u s.nesting.frames t.nesting.frames := by
  obtain ⟨gap, _, ⟨hmore, _⟩ | ⟨_, c, rest, l, p, _, hl, hp, rfl⟩⟩ := step_cases h
  · cases hmore
  · exact ⟨(s.advance gap.length).token gap.lineBreak c rest l p, push_tokens _ _ _ _ _ _,
      Nesting.place_moves hp (lexeme_fits (s := s.advance gap.length) hl) rfl rfl rfl rfl rfl⟩

theorem Scanner.step_end {s t : Scanner} (h : s.step = .ok (t, false)) :
    t.tokens = s.tokens ∧ t.nesting = s.nesting := by
  obtain ⟨gap, _, ⟨_, rfl, _⟩ | ⟨hmore, _⟩⟩ := step_cases h
  · exact ⟨rfl, rfl⟩
  · cases hmore

end ModuleLowering
