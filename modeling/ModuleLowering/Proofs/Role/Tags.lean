import ModuleLowering.Proofs.Role.Endings
import ModuleLowering.Proofs.Role.WellFormed

/-!
JSX among other tokens. What stands inside a tag, or between two, is followed by more of the same until a tag ends;
so neither the text between tags nor the name of a tag is the last token before code at module level.
-/

namespace ModuleLowering

open Text

theorem Region.isJsx_eq_false_of_closer? {region : Region} {kind : Kind} (h : region.closer? = some kind) :
    region.isJsx = false := by
  cases region <;> first | rfl | cases h

theorem Moves.context_of_isJsx {index : Nat} {t : Token} {fs gs : List Frame} (h : Moves index t fs gs)
    (hjsx : (frameContext fs).isJsx) : t.context = frameContext fs := by
  cases h with
  | stays _ _ _ hc | opens _ _ _ _ _ _ hc _ | beginsTag _ _ _ _ hc => exact hc
  | closes region _ _ hk =>
    have hcode : region.isJsx = false := Region.isJsx_eq_false_of_closer? hk
    exact absurd hjsx (by simp [frameContext, Frame.region, hcode])
  | leaves | reenters => cases hjsx
  | endsOpeningTag _ _ _ hc | endsElement _ _ _ hc | endsEmptyElement _ _ _ hc => exact hc

structure JsxRuns (tokens : Array Token) : Prop where
  next : ∀ (i : Nat) (a b : Token), tokens[i]? = some a → tokens[i + 1]? = some b → a.kind.isSteady →
    a.context.isJsx → b.context = a.context
  text : ∀ (i : Nat) (a : Token), tokens[i]? = some a → a.kind = .jsxText → a.context = .jsxChildren

theorem Scanner.context_of_jsxText {s t : Scanner} {u : Token} (h : s.step = .ok (t, true))
    (hu : t.tokens = record s.tokens u) (hk : u.kind = .jsxText) : frameContext s.nesting.frames = .jsxChildren := by
  obtain ⟨gap, _, ⟨hmore, _⟩ | ⟨_, c, rest, l, p, _, hl, _, rfl⟩⟩ := step_cases h
  · cases hmore
  · have heq := congrArg Array.back? (hu.symm.trans (push_tokens _ _ _ _ _ _))
    rw [Bracketed.back?_record, Bracketed.back?_record] at heq
    cases heq
    rcases ending_of_lexeme hl with hending | ⟨_, hcontext⟩
    · exact absurd hk hending.ne_jsxText
    · exact hcontext

namespace JsxRuns

variable {tokens : Array Token} {fs gs : List Frame} {t : Token}

theorem record (h : JsxRuns tokens) (hb : Bracketed tokens fs) (hm : Moves tokens.size t fs gs)
    (htext : t.kind = .jsxText → frameContext fs = .jsxChildren) : JsxRuns (Scanner.record tokens t) where
  next i a b ha hb' hk hjsx := by
    have hlt := lt_size_of_getElem? hb'
    rw [Bracketed.size_record] at hlt
    obtain ⟨o, ho, hao⟩ := exists_of_getElem?_record ha (by omega)
    rw [hao] at hk hjsx ⊢
    by_cases hi : i + 1 = tokens.size
    · rw [getElem?_record, if_pos hi] at hb'
      cases hb'
      have hlast := (hb.last o (by rw [Array.back?, ← hi]; exact ho) hk).2
      dsimp only at hjsx ⊢
      rw [hlast] at hjsx ⊢
      exact hm.context_of_isJsx hjsx
    · obtain ⟨p, hp, hbp⟩ := exists_of_getElem?_record hb' hi
      rw [hbp]
      exact h.next i o p ho hp hk hjsx
  text i a ha hk := by
    by_cases hi : i = tokens.size
    · rw [getElem?_record, if_pos hi] at ha
      cases ha
      have hcontext := htext hk
      rw [hm.context_of_isJsx (by rw [hcontext]; rfl), hcontext]
    · obtain ⟨o, ho, hao⟩ := exists_of_getElem?_record ha hi
      rw [hao] at hk ⊢
      exact h.text i o ho hk

end JsxRuns

theorem Scanner.jsxRuns_step {s t : Scanner} {more : Bool} (hb : Bracketed s.tokens s.nesting.frames)
    (h : JsxRuns s.tokens) (hstep : s.step = .ok (t, more)) : JsxRuns t.tokens := by
  cases more with
  | false =>
    obtain ⟨htokens, _⟩ := step_end hstep
    rwa [htokens]
  | true =>
    obtain ⟨u, htokens, hmoves⟩ := step_moves hstep
    rw [htokens]
    exact h.record hb hmoves (context_of_jsxText hstep htokens)

theorem Stream.jsxRuns_of_read {source : List Char} {r : Stream} (h : Stream.read source = .ok r) :
    JsxRuns r.tokens := by
  obtain ⟨t, ht, _, rfl⟩ := Stream.read_eq_ok h
  have hstart : Bracketed (Scanner.start source).tokens (Scanner.start source).nesting.frames ∧
      JsxRuns (Scanner.start source).tokens := ⟨bracketed_empty, by simp [Scanner.start], by simp [Scanner.start]⟩
  exact (Scanner.run_induction (P := fun u => Bracketed u.tokens u.nesting.frames ∧ JsxRuns u.tokens)
    (fun _ _ _ hu hstep => ⟨Scanner.bracketed_step hu.1 hstep, Scanner.jsxRuns_step hu.1 hu.2 hstep⟩) hstart ht).1.2

theorem Lexeme.beginsElement_cons {c : Char} {rest : List Char} (h : Lexeme.beginsElement (c :: rest)) :
    isBare c ∧ c ≠ '/' ∧ c ≠ ':' := by
  simp only [Lexeme.beginsElement, List.head?_cons, Option.any_some, Bool.or_eq_true, beq_iff_eq] at h
  rcases h with rfl | h
  · decide
  · refine ⟨isBare_of_isIdentifierPart (isIdentifierPart_of_start h), ?_, ?_⟩ <;> rintro rfl
    all_goals exact absurd h (by decide)

theorem Gap.read_of_beginsElement {text : List Char} (h : Lexeme.beginsElement text) : Gap.read text = .ok .empty := by
  cases text with
  | nil => cases h
  | cons c rest =>
    obtain ⟨hbare, hslash, _⟩ := Lexeme.beginsElement_cons h
    simp only [isBare, Bool.and_eq_true, Bool.not_eq_true'] at hbare
    rw [read, extend]
    · rw [if_neg (by simp [hbare.2]), if_neg (by simp [hbare.1.2])]
    · rintro _ rfl _
      exact hslash rfl
    · rintro _ rfl _
      exact hslash rfl

namespace Lexeme

variable {start : Nat} {c : Char} {rest : List Char} {l : Lexeme}

theorem TagReading.kind_ne_colon (h : TagReading start c rest l) (hname : beginsElement (c :: rest)) :
    l.kind ≠ .colon := by
  cases h with
  | colon => exact absurd rfl (beginsElement_cons hname).2.2
  | _ => nofun

theorem CodeReading.beginsElement_of_beginsTag {previous : Option Token} {inSubstitution : Bool}
    (h : CodeReading previous inSubstitution start c rest l) (hk : l.kind.beginsTag) :
    l.effect = .stays ∨ (l.extra = 0 ∧ beginsElement rest) := by
  cases h with
  | chunk _ _ h => cases h <;> cases hk
  | tag h => exact .inr ⟨rfl, h⟩
  | word | punctuator => exact .inl rfl
  | _ => cases hk

end Lexeme

theorem frames_of_place {n : Nesting} {previous : Option Token} {kind : Kind} {index : Nat} {p : Place}
    (h : n.place previous kind .stays index = .ok p) : p.after.frames = n.frames := by
  obtain ⟨q, hq, h⟩ := bind_eq_ok_iff.1 h
  cases h
  cases hq
  rw [Nesting.awaitClass_frames, Nesting.settleClass_frames]

namespace Scanner

variable {s t : Scanner} {u : Token}

theorem beginsElement_of_step (h : s.step = .ok (t, true)) (hu : t.tokens = record s.tokens u) (hk : u.kind.beginsTag)
    (hcode : inMarkup s.nesting.frames = false) (htag : inMarkup t.nesting.frames) : Lexeme.beginsElement t.rest := by
  obtain ⟨gap, _, ⟨hmore, _⟩ | ⟨_, c, rest, l, p, _, hl, hp, rfl⟩⟩ := step_cases h
  · cases hmore
  · have heq := congrArg Array.back? (hu.symm.trans (push_tokens _ _ _ _ _ _))
    rw [Bracketed.back?_record, Bracketed.back?_record] at heq
    cases heq
    have hl' := (reads_of_lexeme hl).code_of_not_inMarkup hcode
    rcases hl'.beginsElement_of_beginsTag hk with hstays | ⟨hextra, hbegins⟩
    · rw [hstays] at hp
      have hsame := frames_of_place hp
      rw [show ((s.advance gap.length).push gap.lineBreak c rest l p).nesting.frames = _ from hsame, hcode] at htag
      cases htag
    · change Lexeme.beginsElement (rest.drop l.extra)
      rw [hextra]
      exact hbegins

structure TagsNamed (s : Scanner) : Prop where
  last : ∀ a, s.tokens.back? = some a → a.kind.beginsTag → a.context.isJsx = false → inMarkup s.nesting.frames →
    Lexeme.beginsElement s.rest
  next : ∀ (i : Nat) (a b : Token), s.tokens[i]? = some a → s.tokens[i + 1]? = some b → a.kind.beginsTag →
    a.context.isJsx = false → b.kind = .colon → b.context.isJsx = false

theorem colon_not_behind_less (h : s.TagsNamed) (hstep : s.step = .ok (t, true)) (hu : t.tokens = record s.tokens u)
    (hk : u.kind = .colon) {a : Token} (ha : s.tokens.back? = some a) (hless : a.kind.beginsTag)
    (hcode : a.context.isJsx = false) : inMarkup s.nesting.frames = false := by
  rw [← Bool.not_eq_true]
  intro hmarkup
  have hbegins := h.last a ha hless hcode hmarkup
  obtain ⟨gap, hgap, ⟨hmore, _⟩ | ⟨_, c, rest, l, p, hrest, hl, hp, rfl⟩⟩ := step_cases hstep
  · cases hmore
  · have heq := congrArg Array.back? (hu.symm.trans (push_tokens _ _ _ _ _ _))
    rw [Bracketed.back?_record, Bracketed.back?_record] at heq
    cases heq
    have hkind : l.kind = .colon := hk
    cases reads_of_lexeme hl with
    | code hout =>
      rw [show inMarkup s.nesting.frames = false from hout] at hmarkup
      cases hmarkup
    | tag hframes h =>
      have hgap' : Gap.read s.rest = .ok gap := by
        unfold Scanner.gap at hgap
        rw [show s.nesting.frames = _ from hframes] at hgap
        dsimp only at hgap
        split at hgap <;> cases hgap
        assumption
      rw [Gap.read_of_beginsElement hbegins] at hgap'
      cases hgap'
      have hsame : (s.advance Gap.empty.length).rest = s.rest := rfl
      rw [hsame] at hrest
      rw [hrest] at hbegins
      exact h.kind_ne_colon hbegins hkind
    | child _ h => cases h <;> cases hkind

theorem inMarkup_eq_false_of_end (h : s.step = .ok (t, false)) : inMarkup t.nesting.frames = false := by
  obtain ⟨gap, _, ⟨_, _, _, hend⟩ | ⟨hmore, _⟩⟩ := step_cases h
  · rw [← Bool.not_eq_true]
    intro hmarkup
    unfold atEnd at hend
    split at hend
    · cases hend
    · cases hend
    · rename_i htag hchildren
      rcases inMarkup_cases hmarkup with ⟨closing, fs, hframes⟩ | ⟨fs, hframes⟩
      · exact htag closing fs hframes
      · exact hchildren fs hframes
  · cases hmore

theorem inMarkup_eq_false_of_moves {index : Nat} {fs gs : List Frame} (hm : Moves index u fs gs)
    (hcode : u.context.isJsx = false) : inMarkup fs = false := by
  rw [← Bool.not_eq_true]
  intro hmarkup
  have hjsx := isJsx_of_inMarkup hmarkup
  rw [← hm.context_of_isJsx hjsx, hcode] at hjsx
  cases hjsx

theorem colon_context (hb : Bracketed s.tokens s.nesting.frames) (h : s.TagsNamed) (hstep : s.step = .ok (t, true))
    (hu : t.tokens = record s.tokens u) (hm : Moves s.tokens.size u s.nesting.frames t.nesting.frames)
    (hk : u.kind = .colon) {a : Token} (ha : s.tokens.back? = some a) (hless : a.kind.beginsTag)
    (hcode : a.context.isJsx = false) : u.context.isJsx = false := by
  have hout := colon_not_behind_less h hstep hu hk ha hless hcode
  obtain ⟨_, _, _, hcontext⟩ := hm.stays_of_isSteady (by rw [hk]; rfl)
  rw [hcontext, ← Bool.not_eq_true]
  intro hjsx
  rw [hb.opened.inMarkup hjsx] at hout
  cases hout

theorem tagsNamed_step {more : Bool} (hb : Bracketed s.tokens s.nesting.frames) (h : s.TagsNamed)
    (hstep : s.step = .ok (t, more)) : t.TagsNamed := by
  cases more with
  | false =>
    obtain ⟨htokens, _⟩ := step_end hstep
    refine ⟨fun a _ _ _ hmarkup => ?_, htokens ▸ h.next⟩
    rw [inMarkup_eq_false_of_end hstep] at hmarkup
    cases hmarkup
  | true =>
    obtain ⟨u, htokens, hmoves⟩ := step_moves hstep
    constructor
    · intro a ha hk hcode
      rw [htokens, Bracketed.back?_record] at ha
      cases ha
      exact beginsElement_of_step hstep htokens hk (inMarkup_eq_false_of_moves hmoves hcode)
    · intro i a b ha hb' hk hcode hcolon
      rw [htokens] at ha hb'
      have hlt := lt_size_of_getElem? hb'
      rw [Bracketed.size_record] at hlt
      obtain ⟨o, ho, hao⟩ := exists_of_getElem?_record ha (by omega)
      rw [hao] at hk hcode
      by_cases hi : i + 1 = s.tokens.size
      · rw [getElem?_record, if_pos hi] at hb'
        cases hb'
        have hback : s.tokens.back? = some o := by
          rw [Array.back?, ← hi]
          exact ho
        exact colon_context hb h hstep htokens hmoves hcolon hback hk hcode
      · obtain ⟨q, hq, hbq⟩ := exists_of_getElem?_record hb' hi
        rw [hbq] at hcolon ⊢
        exact h.next i o q ho hq hk hcode hcolon

end Scanner

theorem Stream.isJsx_of_colon_after_less {source : List Char} {r : Stream} (h : Stream.read source = .ok r) {i : Nat}
    {a b : Token} (ha : r.tokens[i]? = some a) (hb : r.tokens[i + 1]? = some b) (hless : a.kind.beginsTag)
    (hcode : a.context.isJsx = false) (hcolon : b.kind = .colon) : b.context.isJsx = false := by
  obtain ⟨t, ht, _, rfl⟩ := Stream.read_eq_ok h
  have hstart : Bracketed (Scanner.start source).tokens (Scanner.start source).nesting.frames ∧
      (Scanner.start source).TagsNamed := ⟨bracketed_empty, by simp [Scanner.start], by simp [Scanner.start]⟩
  have hrun := Scanner.run_induction (P := fun u => Bracketed u.tokens u.nesting.frames ∧ u.TagsNamed)
    (fun _ _ _ hu hstep => ⟨Scanner.bracketed_step hu.1 hstep, Scanner.tagsNamed_step hu.1 hu.2 hstep⟩) hstart ht
  exact hrun.1.2.next i a b ha hb hless hcode hcolon

theorem Token.isJsx_of_outline {t u : Token} (h : t.outline = u.outline) : t.context.isJsx = u.context.isJsx := by
  have hnormal (t : Token) : t.outline.context.isJsx = t.context.isJsx := by
    unfold outline
    dsimp only
    split
    · rename_i hpattern
      rw [hpattern]
      rfl
    · rfl
  rw [← hnormal t, h, hnormal u]

theorem Token.context_of_outline {t u : Token} (h : t.outline = u.outline) (hu : u.context = .jsxTag) :
    t.context = .jsxTag := by
  have hcontext := congrArg Token.context h
  unfold outline at hcontext
  dsimp only at hcontext
  rw [hu] at hcontext
  split at hcontext
  · cases hcontext
  · exact hcontext

namespace Stream

variable {source : List Char} {s : Stream}

theorem isJsx_of_scan (h : scan source = .ok s) {i : Nat} {a : Token} (ha : s.tokens[i]? = some a)
    (hk : a.kind.isSteady) (hnext : ∀ b, s.tokens[i + 1]? = some b → b.context.isJsx = false) :
    a.context.isJsx = false := by
  obtain ⟨r, hr, ho⟩ := outline_of_scan h
  obtain ⟨u, hu, hua⟩ := exists_of_outline ho ha
  have hku : u.kind.isSteady := by rwa [← u.kind_outline, hua]
  rw [← Token.isJsx_of_outline hua, ← Bool.not_eq_true]
  intro hjsx
  cases hv : r.tokens[i + 1]? with
  | some v =>
    obtain ⟨b, hb, hbv⟩ := exists_of_outline ho.symm hv
    have hcode := hnext b hb
    rw [Token.isJsx_of_outline hbv, (jsxRuns_of_read hr).next i u v hu hv hku hjsx, hjsx] at hcode
    cases hcode
  | none =>
    have hsize := lt_size_of_getElem? hu
    rw [Array.getElem?_eq_none_iff] at hv
    have hback : r.tokens.back? = some u := by
      rw [Array.back?, show r.tokens.size - 1 = i by omega]
      exact hu
    rw [((bracketed_of_read hr).last u hback hku).2] at hjsx
    cases hjsx

theorem isJsx_of_jsxText (h : scan source = .ok s) {i : Nat} {a : Token} (ha : s.tokens[i]? = some a)
    (hk : a.kind = .jsxText) : a.context.isJsx := by
  obtain ⟨r, hr, ho⟩ := outline_of_scan h
  obtain ⟨u, hu, hua⟩ := exists_of_outline ho ha
  have hku : u.kind = .jsxText := by rw [← u.kind_outline, hua, Token.kind_outline, hk]
  rw [← Token.isJsx_of_outline hua, (jsxRuns_of_read hr).text i u hu hku]
  rfl

def TagNames (s : Stream) : Prop :=
  ∀ (i : Nat) (t : Token), s.tokens[i]? = some t → t.role = some .jsxTag →
    t.context = .jsxTag ∧ ∃ k, i = k + 1 ∧ (s.isAt k .less ∨ s.isAt k .lessSlash)

theorem TagNames.update (h : s.TagNames) {i : Nat} {f : Token → Token} (ho : ∀ t, (f t).outline = t.outline)
    (hf : ∀ t, s.tokens[i]? = some t → (f t).role = some .jsxTag → t.role = some .jsxTag ∨
      (t.context = .jsxTag ∧ ∃ k, i = k + 1 ∧ (s.isAt k .less ∨ s.isAt k .lessSlash))) :
    (s.update i f).TagNames := by
  intro j u hu hrole
  simp only [isAt_outline (s.outline_update i ho)]
  rw [show (s.update i f).tokens = s.tokens.modify i f from rfl, Array.getElem?_modify] at hu
  split at hu
  · rename_i heq
    subst heq
    obtain ⟨t, ht, rfl⟩ := Option.map_eq_some_iff.1 hu
    have htag := (hf t ht hrole).elim (h i t ht) id
    exact ⟨Token.context_of_outline (ho t) htag.1, htag.2⟩
  · exact h j u hu hrole

theorem tag_of_roleAt {i : Nat} {t : Token} (h : s.roleAt i t = .jsxTag) :
    t.context = .jsxTag ∧ ∃ k, i = k + 1 ∧ (s.isAt k .less ∨ s.isAt k .lessSlash) := by
  have hproperty : s.propertyRole i t ≠ .jsxTag := by
    unfold propertyRole
    repeat' split
    all_goals nofun
  have hmember : s.memberRole i t ≠ .jsxTag := by
    unfold memberRole
    repeat' split
    all_goals nofun
  unfold roleAt at h
  split at h
  · cases h
  split at h
  · rename_i hcontext
    refine ⟨hcontext, ?_⟩
    unfold tagRole at h
    split at h
    · cases h
    · rename_i hbefore
      rw [Bool.not_eq_true', Bool.not_eq_false, Option.any_eq_true] at hbefore
      obtain ⟨p, hp, hkind⟩ := hbefore
      obtain ⟨k, rfl⟩ : ∃ k, i = k + 1 := Nat.exists_eq_succ_of_ne_zero (by rintro rfl; cases hp)
      rw [before?_succ] at hp
      refine ⟨k, rfl, ?_⟩
      simpa [isAt, kind?, hp] using hkind
  · repeat' split at h
    all_goals first
      | cases h
      | exact absurd h hproperty
      | exact absurd h hmember

theorem TagNames.assignRole (h : s.TagNames) (i : Nat) : (s.assignRole i).TagNames := by
  unfold Stream.assignRole
  split
  · rename_i t ht
    split
    · refine h.update (fun _ => rfl) fun u hu hrole => ?_
      rw [ht] at hu
      cases hu
      exact .inr (tag_of_roleAt (Option.some.inj hrole))
    · exact h
  · exact h

theorem TagNames.mark (h : s.TagNames) (m : Mark) : (s.mark m).TagNames := by
  have hgroup {s : Stream} (h : s.TagNames) (i : Nat) (region : Region) : (s.setGroup i region).TagNames :=
    h.update (fun _ => rfl) fun _ _ => .inl
  have henter {s : Stream} (h : s.TagNames) (i : Nat) : (s.enterPattern i).TagNames := by
    refine h.update (fun t => ?_) fun t _ hrole => ?_
    · split
      · rename_i hobject
        simp [Token.outline, hobject]
      · rfl
    · split at hrole <;> exact .inl hrole
  cases m with
  | target i =>
    refine h.update (fun t => ?_) fun t _ hrole => ?_
    · split <;> rfl
    · split at hrole
      · cases hrole
      · exact .inl hrole
  | name i => exact h.update (fun _ => rfl) fun _ _ hrole => by cases hrole
  | pattern a b => exact List.foldlRecOn _ _ (hgroup (hgroup h a .pattern) b .pattern) fun s hs i _ => henter hs i

theorem role_of_read {r : Stream} (h : Stream.read source = .ok r) {i : Nat} {t : Token}
    (ht : r.tokens[i]? = some t) : t.role = none := by
  obtain ⟨u, hu, _, rfl⟩ := read_eq_ok h
  refine (Scanner.run_induction (P := fun u => ∀ role ∈ u.tokens.toList.map Token.role, role = none) ?_
    (by simp [Scanner.start]) hu).1 _ (List.mem_map_of_mem (Array.mem_toList_iff.2 (Array.mem_of_getElem? ht)))
  intro s t more hs hstep
  obtain ⟨gap, _, ⟨_, rfl, _, _⟩ | ⟨_, c, rest, l, p, _, _, _, rfl⟩⟩ := Scanner.step_cases hstep
  · exact hs
  · rw [Scanner.push_tokens, map_record _ fun _ _ => rfl]
    intro role hrole
    rcases List.mem_append.1 hrole with hrole | hrole
    · exact hs role hrole
    · exact List.mem_singleton.1 hrole

theorem tagNames_of_scan (h : scan source = .ok s) : s.TagNames := by
  obtain ⟨r, hr, rfl⟩ := map_eq_ok_iff.1 h
  have hnone : r.TagNames := by
    intro i t ht hrole
    rw [role_of_read hr ht] at hrole
    cases hrole
  have hassigned : r.assignRoles.TagNames := List.foldlRecOn _ _ hnone fun s hs i _ => hs.assignRole i
  exact List.foldlRecOn _ _ hassigned fun s hs i _ => List.foldlRecOn _ _ hs fun s hs m _ => hs.mark m

end Stream

end ModuleLowering
