import ModuleLowering.Proofs.Scan.Moves

namespace ModuleLowering

/-- The open brackets and substitutions: each knows its opening token, which has no partner yet, and every
token after that one is deeper. -/
def Opened (tokens : Array Token) : List Frame → Prop
  | [] => True
  | .group region opener _ :: fs =>
    (∃ t, tokens[opener]? = some t ∧ region.Opens t.kind ∧ t.group = some region ∧ t.pair = none ∧
      t.depth = frameDepth fs ∧ t.context = frameContext fs) ∧
    (∀ i t, opener < i → tokens[i]? = some t → frameDepth fs < t.depth) ∧ Opened tokens fs
  | .tag _ :: fs | .children :: fs => Opened tokens fs

structure Mates (tokens : Array Token) (i j : Nat) : Prop where
  lt : i < j
  brackets : ∃ a b region, tokens[i]? = some a ∧ tokens[j]? = some b ∧ region.Opens a.kind ∧
    region.closer? = some b.kind ∧ a.group = some region ∧ b.group = some region ∧
    a.pair = some j ∧ b.pair = some i ∧ a.depth = b.depth ∧ a.context = b.context
  inner : ∀ k a t, tokens[i]? = some a → i < k → k < j → tokens[k]? = some t → a.depth < t.depth

/-- The structure of the tokens read so far, given what is open after them. -/
structure Bracketed (tokens : Array Token) (fs : List Frame) : Prop where
  opened : Opened tokens fs
  mates : ∀ i t j, tokens[i]? = some t → t.pair = some j → Mates tokens i j ∨ Mates tokens j i
  paired : ∀ i t, tokens[i]? = some t → t.kind.isOpener → t.pair = none →
    ∃ region waiting, .group region i waiting ∈ fs
  last : ∀ t, tokens.back? = some t → t.kind.isSteady →
    t.depth = frameDepth fs ∧ t.context = frameContext fs
  steady : ∀ i a b, tokens[i]? = some a → tokens[i + 1]? = some b → a.kind.isSteady → b.kind.isSteady →
    a.depth = b.depth ∧ a.context = b.context

theorem bracketed_empty : Bracketed #[] [] where
  opened := trivial
  mates := by simp
  paired := by simp
  last := by simp
  steady := by simp

theorem getElem?_record (tokens : Array Token) (t : Token) (i : Nat) :
    (Scanner.record tokens t)[i]? =
      if i = tokens.size then some t
      else if t.pair = some i then tokens[i]?.map fun o => { o with pair := some tokens.size }
      else tokens[i]? := by
  unfold Scanner.record
  cases hp : t.pair with
  | none => simp [Array.getElem?_push]
  | some opener =>
    simp only [Array.getElem?_push, Array.size_modify, Option.some.injEq]
    split
    · rfl
    · rw [Array.getElem?_modify]

theorem getElem?_record_of_ne {tokens : Array Token} {t : Token} {i : Nat} (hp : t.pair ≠ some i)
    (hi : i ≠ tokens.size) : (Scanner.record tokens t)[i]? = tokens[i]? := by
  rw [getElem?_record, if_neg hi, if_neg hp]

theorem of_getElem?_record {tokens : Array Token} {t u : Token} {i : Nat}
    (h : (Scanner.record tokens t)[i]? = some u) :
    (i = tokens.size ∧ u = t) ∨
      ∃ o, tokens[i]? = some o ∧ i < tokens.size ∧
        (u = o ∨ t.pair = some i ∧ u = { o with pair := some tokens.size }) := by
  rw [getElem?_record] at h
  split at h
  · cases h
    exact .inl ⟨‹_›, rfl⟩
  · split at h
    · obtain ⟨o, ho, rfl⟩ := Option.map_eq_some_iff.1 h
      exact .inr ⟨o, ho, (Array.getElem?_eq_some_iff.1 ho).1, .inr ⟨‹_›, rfl⟩⟩
    · exact .inr ⟨u, h, (Array.getElem?_eq_some_iff.1 h).1, .inl rfl⟩

theorem exists_of_getElem?_record {tokens : Array Token} {t u : Token} {i : Nat}
    (h : (Scanner.record tokens t)[i]? = some u) (hi : i ≠ tokens.size) :
    ∃ o, tokens[i]? = some o ∧ u = { o with pair := u.pair } := by
  rcases of_getElem?_record h with ⟨heq, _⟩ | ⟨o, ho, _, rfl | ⟨_, rfl⟩⟩
  · exact absurd heq hi
  · exact ⟨u, ho, rfl⟩
  · exact ⟨o, ho, rfl⟩

theorem lt_size_of_getElem? {tokens : Array Token} {t : Token} {i : Nat} (h : tokens[i]? = some t) :
    i < tokens.size := (Array.getElem?_eq_some_iff.1 h).1

theorem Opened.depth_lt {tokens : Array Token} {fs : List Frame} (h : Opened tokens fs)
    {region : Region} {opener waiting : Nat} (hm : .group region opener waiting ∈ fs) :
    ∃ t, tokens[opener]? = some t ∧ t.depth < frameDepth fs := by
  induction fs with
  | nil => cases hm
  | cons f fs ih =>
    cases f with
    | group r o w =>
      obtain ⟨⟨t, ht, _, _, _, hd, _⟩, _, hrest⟩ := h
      rw [frameDepth_group]
      rcases List.mem_cons.1 hm with heq | hm
      · cases heq
        exact ⟨t, ht, by omega⟩
      · obtain ⟨u, hu, hlt⟩ := ih hrest hm
        exact ⟨u, hu, by omega⟩
    | tag closing => simpa using ih h (by simpa using hm)
    | children => simpa using ih h (by simpa using hm)

theorem Opened.inMarkup {tokens : Array Token} {fs : List Frame} (h : Opened tokens fs)
    (hjsx : (frameContext fs).isJsx) : ModuleLowering.inMarkup fs := by
  cases fs with
  | nil => cases hjsx
  | cons f fs =>
    cases f with
    | group region =>
      obtain ⟨⟨_, _, hopens, _⟩, _⟩ := h
      have := Region.isJsx_eq_false_of_opens hopens
      rw [show region.isJsx = true from hjsx] at this
      cases this
    | tag | children => rfl

theorem Opened.record {tokens : Array Token} {fs : List Frame} (h : Opened tokens fs) {t : Token}
    (hd : frameDepth fs ≤ t.depth)
    (hp : ∀ region opener waiting, .group region opener waiting ∈ fs → t.pair ≠ some opener) :
    Opened (Scanner.record tokens t) fs := by
  induction fs with
  | nil => trivial
  | cons f fs ih =>
    cases f with
    | group region opener waiting =>
      rw [frameDepth_group] at hd
      obtain ⟨⟨o, ho, hopens⟩, hdeep, hrest⟩ := h
      have hlt := lt_size_of_getElem? ho
      refine ⟨⟨o, ?_, hopens⟩, ?_, ih hrest (by omega) fun r p w hm => hp r p w (List.mem_cons_of_mem _ hm)⟩
      · rw [getElem?_record_of_ne (hp _ _ _ List.mem_cons_self) (by omega), ho]
      · intro i u hi hu
        rcases of_getElem?_record hu with ⟨_, rfl⟩ | ⟨v, hv, _, rfl | ⟨_, rfl⟩⟩
        · omega
        · exact hdeep i _ hi hv
        · exact hdeep i v hi hv
    | tag closing => exact ih h (by simpa using hd) fun r p w hm => hp r p w (List.mem_cons_of_mem _ hm)
    | children => exact ih h (by simpa using hd) fun r p w hm => hp r p w (List.mem_cons_of_mem _ hm)

theorem Region.Opens.isStructural {region : Region} {kind : Kind} (h : region.Opens kind) :
    kind.isStructural = true := by
  cases region with
  | topLevel | jsxTag | jsxChildren => cases h
  | templateExpr => rcases h with rfl | rfl <;> rfl
  | _ => obtain rfl := h; rfl

theorem Region.isStructural_of_closer? {region : Region} {kind : Kind} (h : region.closer? = some kind) :
    kind.isStructural = true ∧ kind.isOpener = false := by
  cases region <;> cases h <;> exact ⟨rfl, rfl⟩

theorem Moves.stays_of_isSteady {index : Nat} {t : Token} {fs gs : List Frame} (h : Moves index t fs gs)
    (hs : t.kind.isSteady) :
    gs = fs ∧ t.pair = none ∧ t.depth = frameDepth fs ∧ t.context = frameContext fs := by
  cases h with
  | stays _ hp hd hc => exact ⟨rfl, hp, hd, hc⟩
  | opens region _ hk => rw [Kind.isSteady, hk.isStructural] at hs; cases hs
  | closes region _ _ hk => rw [Kind.isSteady, (Region.isStructural_of_closer? hk).1] at hs; cases hs
  | leaves _ _ hk => simp [hk, Kind.isSteady, Kind.isStructural] at hs
  | reenters _ _ _ hk => simp [hk, Kind.isSteady, Kind.isStructural] at hs
  | beginsTag closing hk => cases closing <;> simp [hk, Kind.isSteady, Kind.isStructural] at hs
  | endsOpeningTag hk => simp [hk, Kind.isSteady] at hs
  | endsElement hk => simp [hk, Kind.isSteady] at hs
  | endsEmptyElement hk => simp [hk, Kind.isSteady, Kind.isStructural] at hs

theorem Kind.isStructural_of_isOpener {kind : Kind} (h : kind.isOpener = true) :
    kind.isStructural = true := by
  cases kind <;> first | rfl | cases h

theorem Moves.opens_of_isOpener {index : Nat} {t : Token} {fs gs : List Frame} (h : Moves index t fs gs)
    (hk : t.kind.isOpener = true) : ∃ region waiting, gs = .group region index waiting :: fs ∧ region.Opens t.kind ∧
      t.depth = frameDepth fs ∧ t.context = frameContext fs := by
  cases h with
  | stays hs => rw [Kind.isStructural_of_isOpener hk] at hs; cases hs
  | opens region waiting hopens _ _ hd hc => exact ⟨region, waiting, rfl, hopens, hd, hc⟩
  | closes region _ _ hc => rw [(Region.isStructural_of_closer? hc).2] at hk; cases hk
  | leaves _ _ ht => rw [ht] at hk; cases hk
  | reenters _ _ _ ht => rw [ht] at hk; cases hk
  | beginsTag closing ht => cases closing <;> rw [ht] at hk <;> cases hk
  | endsOpeningTag ht | endsElement ht | endsEmptyElement ht => rw [ht] at hk; cases hk

namespace Bracketed

variable {tokens : Array Token} {t : Token} {fs gs : List Frame}

theorem opener (h : Bracketed tokens fs) (hm : Moves tokens.size t fs gs) {i : Nat} (hp : t.pair = some i) :
    ∃ region waiting o, fs = .group region i waiting :: gs ∧ region.closer? = some t.kind ∧
      t.group = some region ∧ t.depth = frameDepth gs ∧ t.context = frameContext gs ∧
      tokens[i]? = some o ∧ region.Opens o.kind ∧ o.group = some region ∧ o.pair = none ∧
      o.depth = frameDepth gs ∧ o.context = frameContext gs := by
  cases hm with
  | closes region opener waiting hk hg hp' hd hc =>
    rw [hp] at hp'
    cases hp'
    obtain ⟨⟨o, ho, hopens, hog, hop, hod, hoc⟩, _⟩ := h.opened
    exact ⟨region, waiting, o, rfl, hk, hg, hd, hc, ho, hopens, hog, hop, hod, hoc⟩
  | stays _ hp' | opens _ _ _ _ hp' | leaves _ _ _ hp' | reenters _ _ _ _ _ hp' | beginsTag _ _ hp'
  | endsOpeningTag _ hp' | endsElement _ hp' | endsEmptyElement _ hp' => rw [hp] at hp'; cases hp'

theorem opened_record (h : Bracketed tokens fs) (hm : Moves tokens.size t fs gs) :
    Opened (Scanner.record tokens t) gs := by
  have hnew (hp : t.pair = none) : (Scanner.record tokens t)[tokens.size]? = some t := by
    rw [getElem?_record, if_pos rfl]
  have hnone (i : Nat) (u : Token) (hi : tokens.size < i) (hu : (Scanner.record tokens t)[i]? = some u) :
      False := by
    rcases of_getElem?_record hu with ⟨hi', _⟩ | ⟨_, _, hi', _⟩ <;> omega
  have hbefore := h.opened
  cases hm with
  | stays hk hp hd hc => exact hbefore.record (Nat.le_of_eq hd.symm) (by simp [hp])
  | opens region waiting hk hg hp hd hc =>
    exact ⟨⟨t, hnew hp, hk, hg, hp, hd, hc⟩, fun i u hi hu => (hnone i u hi hu).elim,
      hbefore.record (Nat.le_of_eq hd.symm) (by simp [hp])⟩
  | closes region opener waiting hk hg hp hd hc =>
    obtain ⟨⟨o, ho, _, _, _, hod, _⟩, _, hrest⟩ := hbefore
    apply hrest.record (Nat.le_of_eq hd.symm)
    intro r p w hmem heq
    obtain ⟨u, hu, hlt⟩ := hrest.depth_lt hmem
    rw [hp] at heq
    cases heq
    rw [ho] at hu
    cases hu
    omega
  | leaves opener waiting hk hp hd hc =>
    exact hbefore.2.2.record (Nat.le_of_eq hd.symm) (by simp [hp])
  | reenters opener waiting waiting' hk hg hp hd hc =>
    exact ⟨⟨t, hnew hp, .inr hk, hg, hp, hd, hc⟩, fun i u hi hu => (hnone i u hi hu).elim,
      hbefore.2.2.record (Nat.le_of_eq hd.symm) (by simp [hp])⟩
  | beginsTag closing hk hp hd hc => exact hbefore.record (Nat.le_of_eq hd.symm) (by simp [hp])
  | endsOpeningTag hk hp hd hc => exact Opened.record hbefore (Nat.le_of_eq hd.symm) (by simp [hp])
  | endsElement hk hp hd hc => exact Opened.record hbefore (Nat.le_of_eq hd.symm) (by simp [hp])
  | endsEmptyElement hk hp hd hc => exact Opened.record hbefore (Nat.le_of_eq hd.symm) (by simp [hp])

theorem mates_record (h : Bracketed tokens fs) (hm : Moves tokens.size t fs gs) {i j : Nat}
    (hij : Mates tokens i j) : Mates (Scanner.record tokens t) i j := by
  obtain ⟨a, b, region, ha, hb, hrest⟩ := hij.brackets
  have hkeep (k : Nat) (u : Token) (l : Nat) (hu : tokens[k]? = some u) (hp : u.pair = some l) :
      (Scanner.record tokens t)[k]? = some u := by
    rw [getElem?_record_of_ne _ (Nat.ne_of_lt (lt_size_of_getElem? hu)), hu]
    intro hk
    obtain ⟨_, _, o, _, _, _, _, _, ho, _, _, hnone, _⟩ := h.opener hm hk
    rw [hu] at ho
    cases ho
    rw [hp] at hnone
    cases hnone
  have ha' := hkeep i a j ha hrest.2.2.2.2.1
  refine ⟨hij.lt, ⟨a, b, region, ha', hkeep j b i hb hrest.2.2.2.2.2.1, hrest⟩, ?_⟩
  intro k a' u hak hik hkj hu
  rw [ha'] at hak
  cases hak
  have hj := lt_size_of_getElem? hb
  rcases of_getElem?_record hu with ⟨hk, _⟩ | ⟨v, hv, _, rfl | ⟨_, rfl⟩⟩
  · omega
  · exact hij.inner k a _ ha hik hkj hv
  · exact hij.inner k a v ha hik hkj hv

theorem new_mates (h : Bracketed tokens fs) (hm : Moves tokens.size t fs gs) {i : Nat}
    (hp : t.pair = some i) : Mates (Scanner.record tokens t) i tokens.size := by
  obtain ⟨region, waiting, o, rfl, hcloser, hg, hd, hc, ho, hopens, hog, _, hod, hoc⟩ := h.opener hm hp
  have hi := lt_size_of_getElem? ho
  have ho' : (Scanner.record tokens t)[i]? = some { o with pair := some tokens.size } := by
    rw [getElem?_record, if_neg (by omega), if_pos hp, ho]
    rfl
  refine ⟨hi, ⟨_, t, region, ho', by rw [getElem?_record, if_pos rfl], hopens, hcloser, hog, hg, rfl, hp,
    hod.trans hd.symm, hoc.trans hc.symm⟩, ?_⟩
  intro k a u ha hik hk hu
  rw [ho'] at ha
  cases ha
  dsimp only
  rw [hod]
  rcases of_getElem?_record hu with ⟨hk', _⟩ | ⟨v, hv, _, rfl | ⟨_, rfl⟩⟩
  · omega
  · exact h.opened.2.1 k _ hik hv
  · exact h.opened.2.1 k v hik hv

theorem paired_record (h : Bracketed tokens fs) (hm : Moves tokens.size t fs gs) {i : Nat} {u : Token}
    (hu : (Scanner.record tokens t)[i]? = some u) (hk : u.kind.isOpener = true) (hp : u.pair = none) :
    ∃ region waiting, .group region i waiting ∈ gs := by
  rcases of_getElem?_record hu with ⟨rfl, rfl⟩ | ⟨o, ho, _, rfl | ⟨_, rfl⟩⟩
  · obtain ⟨region, waiting, rfl, _⟩ := hm.opens_of_isOpener hk
    exact ⟨region, waiting, List.mem_cons_self⟩
  · obtain ⟨region, waiting, hmem⟩ := h.paired i u ho hk hp
    have hopened := h.opened
    cases hm with
    | stays => exact ⟨region, waiting, hmem⟩
    | opens | beginsTag => exact ⟨region, waiting, List.mem_cons_of_mem _ hmem⟩
    | closes r opener w hcl hg hop =>
      rcases List.mem_cons.1 hmem with heq | hmem
      · cases heq
        rw [getElem?_record, if_neg (by omega), if_pos hop, ho] at hu
        rw [← Option.some.inj hu] at hp
        cases hp
      · exact ⟨region, waiting, hmem⟩
    | leaves opener w =>
      rcases List.mem_cons.1 hmem with heq | hmem
      · cases heq
        obtain ⟨⟨v, hv, hvk, _⟩, _⟩ := hopened
        rw [ho] at hv
        cases hv
        rcases hvk with hvk | hvk <;> rw [hvk] at hk <;> cases hk
      · exact ⟨region, waiting, hmem⟩
    | reenters opener w =>
      rcases List.mem_cons.1 hmem with heq | hmem
      · cases heq
        obtain ⟨⟨v, hv, hvk, _⟩, _⟩ := hopened
        rw [ho] at hv
        cases hv
        rcases hvk with hvk | hvk <;> rw [hvk] at hk <;> cases hk
      · exact ⟨region, waiting, List.mem_cons_of_mem _ hmem⟩
    | endsOpeningTag => exact ⟨region, waiting, by simpa using hmem⟩
    | endsElement => exact ⟨region, waiting, by simpa using hmem⟩
    | endsEmptyElement => exact ⟨region, waiting, by simpa using hmem⟩
  · cases hp

theorem back?_record (tokens : Array Token) (t : Token) : (Scanner.record tokens t).back? = some t := by
  unfold Scanner.record
  split <;> simp

theorem size_record (tokens : Array Token) (t : Token) :
    (Scanner.record tokens t).size = tokens.size + 1 := by
  unfold Scanner.record
  split <;> simp

theorem steady_record (h : Bracketed tokens fs) (hm : Moves tokens.size t fs gs) {i : Nat} {a b : Token}
    (ha : (Scanner.record tokens t)[i]? = some a) (hb : (Scanner.record tokens t)[i + 1]? = some b)
    (hka : a.kind.isSteady = true) (hkb : b.kind.isSteady = true) :
    a.depth = b.depth ∧ a.context = b.context := by
  have hlt := lt_size_of_getElem? hb
  rw [size_record] at hlt
  obtain ⟨o, ho, hao⟩ := exists_of_getElem?_record ha (by omega)
  rw [hao] at hka ⊢
  by_cases hi : i + 1 = tokens.size
  · rw [getElem?_record, if_pos hi] at hb
    cases hb
    obtain ⟨_, _, hd, hc⟩ := hm.stays_of_isSteady hkb
    rw [hd, hc]
    exact h.last o (by rw [Array.back?, ← hi]; exact ho) hka
  · obtain ⟨p, hp, hbp⟩ := exists_of_getElem?_record hb hi
    rw [hbp] at hkb ⊢
    exact h.steady i o p ho hp hka hkb

theorem record (h : Bracketed tokens fs) (hm : Moves tokens.size t fs gs) :
    Bracketed (Scanner.record tokens t) gs where
  opened := h.opened_record hm
  mates := by
    intro i u j hu hp
    rcases of_getElem?_record hu with ⟨rfl, rfl⟩ | ⟨o, ho, _, rfl | ⟨hpi, rfl⟩⟩
    · exact .inr (h.new_mates hm hp)
    · exact (h.mates i u j ho hp).imp (h.mates_record hm) (h.mates_record hm)
    · cases hp
      exact .inl (h.new_mates hm hpi)
  paired := fun _ _ hu hk hp => h.paired_record hm hu hk hp
  last := by
    intro u hu hk
    rw [back?_record] at hu
    cases hu
    obtain ⟨rfl, _, hd, hc⟩ := hm.stays_of_isSteady hk
    exact ⟨hd, hc⟩
  steady := fun _ _ _ ha hb hka hkb => h.steady_record hm ha hb hka hkb

theorem lt_size_of_pair (h : Bracketed tokens fs) (ht : t ∈ tokens) {j : Nat} (hj : t.pair = some j) :
    j < tokens.size := by
  obtain ⟨i, hi⟩ := Array.getElem?_of_mem ht
  rcases h.mates i t j hi hj with hmates | hmates
  · obtain ⟨_, _, _, _, hb, _⟩ := hmates.brackets
    exact lt_size_of_getElem? hb
  · obtain ⟨_, _, _, ha, _⟩ := hmates.brackets
    exact lt_size_of_getElem? ha

end Bracketed

theorem Scanner.bracketed_step {s t : Scanner} {more : Bool} (h : Bracketed s.tokens s.nesting.frames)
    (hstep : s.step = .ok (t, more)) : Bracketed t.tokens t.nesting.frames := by
  cases more with
  | false =>
    obtain ⟨htokens, hnesting⟩ := step_end hstep
    rwa [htokens, hnesting]
  | true =>
    obtain ⟨u, htokens, hmoves⟩ := step_moves hstep
    rw [htokens]
    exact h.record hmoves

theorem Stream.bracketed_of_read {source : List Char} {s : Stream} (h : Stream.read source = .ok s) :
    Bracketed s.tokens [] := by
  obtain ⟨t, ht, hf, rfl⟩ := Stream.read_eq_ok h
  have hrun := Scanner.run_induction (P := fun u => Bracketed u.tokens u.nesting.frames)
    (fun _ _ _ => Scanner.bracketed_step) bracketed_empty ht
  rw [hf] at hrun
  exact hrun.1

def Kind.isCloser : Kind → Bool
  | closeParen | closeBracket | closeBrace => true
  | _ => false

theorem Region.isCloser_of_closer? {region : Region} {kind : Kind} (h : region.closer? = some kind) :
    kind.isCloser = true := by
  cases region <;> cases h <;> rfl

theorem Moves.pair_of_isCloser {index : Nat} {t : Token} {fs gs : List Frame} (h : Moves index t fs gs)
    (hk : t.kind.isCloser) : ∃ opener, t.pair = some opener := by
  have hstructural : t.kind.isStructural = true := by
    revert hk
    cases t.kind <;> simp [Kind.isCloser, Kind.isStructural]
  cases h with
  | stays hs => rw [hstructural] at hs; cases hs
  | opens region _ ho =>
    cases region with
    | topLevel | jsxTag | jsxChildren => cases ho
    | templateExpr => rcases ho with ho | ho <;> rw [ho] at hk <;> cases hk
    | _ => rw [show t.kind = _ from ho] at hk; cases hk
  | closes _ opener _ _ _ hp => exact ⟨opener, hp⟩
  | leaves _ _ ht | reenters _ _ _ ht => rw [ht] at hk; cases hk
  | beginsTag closing ht => cases closing <;> rw [ht] at hk <;> cases hk
  | endsOpeningTag ht | endsElement ht | endsEmptyElement ht => rw [ht] at hk; cases hk

def ClosersPaired (tokens : Array Token) : Prop :=
  ∀ (j : Nat) (b : Token), tokens[j]? = some b → b.kind.isCloser → ∃ i, b.pair = some i

theorem ClosersPaired.record {tokens : Array Token} {t : Token} {fs gs : List Frame} (h : ClosersPaired tokens)
    (hm : Moves tokens.size t fs gs) : ClosersPaired (Scanner.record tokens t) := by
  intro j b hj hk
  rcases of_getElem?_record hj with ⟨_, rfl⟩ | ⟨o, ho, _, rfl | ⟨_, rfl⟩⟩
  · exact hm.pair_of_isCloser hk
  · exact h j b ho hk
  · exact ⟨_, rfl⟩

theorem Stream.closersPaired_of_read {source : List Char} {r : Stream} (h : Stream.read source = .ok r) :
    ClosersPaired r.tokens := by
  obtain ⟨t, ht, _, rfl⟩ := Stream.read_eq_ok h
  refine (Scanner.run_induction (P := fun u => ClosersPaired u.tokens) ?_ (by simp [ClosersPaired, Scanner.start])
    ht).1
  intro u v more hu hstep
  cases more with
  | false => rwa [(Scanner.step_end hstep).1]
  | true =>
    obtain ⟨w, htokens, hmoves⟩ := Scanner.step_moves hstep
    rw [htokens]
    exact hu.record hmoves

end ModuleLowering
