import ModuleLowering.Proofs.Scan.Moves

/-!
Grammar of what nests: brackets, templates, tags and elements. What has begun somewhere has one end. Of the tokens that
begin something only a less-than sign can be an operator as well, and what stands behind it tells which it is.
-/

namespace ModuleLowering

def Region.admits : Region → Kind → Bool
  | .jsxTag, kind => kind ∈ [.equals, .dot, .colon, .string, .identifier]
  | .jsxChildren, kind => kind = .jsxText
  | _, kind => !kind.isStructural && kind ≠ .jsxText

def Region.stops : Region → Kind → Bool
  | .jsxTag, kind => kind ∈ [.greater, .slashGreater]
  | .jsxChildren, kind => kind = .lessSlash
  | _, kind => kind ∈ [.closeBrace, .closeParen, .closeBracket, .templateMiddle, .templateTail]

theorem Region.stops_of_closer? {region : Region} {kind : Kind} (h : region.closer? = some kind) :
    region.stops kind := by
  cases region <;> cases h <;> rfl

theorem Region.not_admits_of_stops {region : Region} {kind : Kind} (h : region.stops kind) :
    region.admits kind = false := by
  cases region <;> cases kind <;> first | rfl | cases h

theorem Region.not_stops_of_jsxTag {kind : Kind} (hk : jsxTag.admits kind ∨ jsxTag.stops kind) {region : Region}
    (hcode : region.isJsx = false) : region.stops kind = false := by
  have hkinds : kind ∈ [.equals, .dot, .colon, .string, .identifier] ++ [.greater, .slashGreater] :=
    List.mem_append.2 (hk.imp of_decide_eq_true of_decide_eq_true)
  simp only [List.mem_append, List.mem_cons, List.not_mem_nil, or_false] at hkinds
  rcases hkinds with (rfl | rfl | rfl | rfl | rfl) | rfl | rfl <;> cases region <;> first | rfl | cases hcode

theorem Region.Opens.kind_cases {region : Region} {kind : Kind} (h : region.Opens kind)
    (hnew : kind ≠ .templateMiddle) :
    kind = .openBrace ∨ kind = .openParen ∨ kind = .openBracket ∨ kind = .templateHead := by
  cases region with
  | topLevel | jsxTag | jsxChildren => cases h
  | paren => exact .inr (.inl h)
  | bracket => exact .inr (.inr (.inl h))
  | templateExpr => exact .inr (.inr (.inr (h.resolve_right hnew)))
  | _ => exact .inl h

structure Spot where
  kind : Kind
  context : Region
  depth : Nat
  group : Option Region

def Token.spot (t : Token) : Spot := ⟨t.kind, t.context, t.depth, t.group⟩

/-- What a stretch of tokens can be: what stands in a region without closing it, or the rest of a bracket, a tag, an
element or a closing tag behind the token that begins it. A tag that opens an element has the element with it. -/
inductive Phrase
  | run (region : Region) (depth : Nat)
  | group (region outer : Region) (depth : Nat)
  | tag (depth : Nat)
  | element (depth : Nat)
  | closing (depth : Nat)

def Phrase.isRun : Phrase → Bool
  | run .. => true
  | _ => false

def Phrase.inside : Phrase → Region × Nat
  | run region depth => (region, depth)
  | group region _ depth => (region, depth + 1)
  | tag depth | closing depth => (.jsxTag, depth)
  | element depth => (.jsxChildren, depth)

inductive Spot.Begins (t : Spot) : Phrase → Prop
  | group {region : Region} (hk : region.Opens t.kind) (hnew : t.kind ≠ .templateMiddle) (hg : t.group = some region)
      (hjsx : region = .jsxExpr ↔ t.context.isJsx) : Begins t (.group region t.context t.depth)
  | tag (hk : t.kind = .less) : Begins t (.tag t.depth)

inductive Spot.Ends (t : Spot) : Phrase → Option Phrase → Prop
  | bracket {region : Region} (hk : region.closer? = some t.kind) (hg : t.group = some region) :
      Ends t (.group region t.context t.depth) none
  | template (hk : t.kind = .templateTail) : Ends t (.group .templateExpr t.context t.depth) none
  | substitution (hk : t.kind = .templateMiddle) :
      Ends t (.group .templateExpr t.context t.depth) (some (.group .templateExpr t.context t.depth))
  | emptyElement (hk : t.kind = .slashGreater) (hc : t.context = .jsxTag) : Ends t (.tag t.depth) none
  | openingTag (hk : t.kind = .greater) (hc : t.context = .jsxTag) : Ends t (.tag t.depth) (some (.element t.depth))
  | children (hk : t.kind = .lessSlash) (hc : t.context = .jsxChildren) :
      Ends t (.element t.depth) (some (.closing t.depth))
  | closingTag (hk : t.kind = .greater) (hc : t.context = .jsxTag) : Ends t (.closing t.depth) none

inductive Parses : Phrase → List Spot → Prop
  | nil {region : Region} {depth : Nat} : Parses (.run region depth) []
  | plain {t : Spot} {ts : List Spot} (hk : t.context.admits t.kind) (h : Parses (.run t.context t.depth) ts) :
      Parses (.run t.context t.depth) (t :: ts)
  | inner {t : Spot} {phrase : Phrase} {as ts : List Spot} (hbegins : t.Begins phrase) (hphrase : Parses phrase as)
      (h : Parses (.run t.context t.depth) ts) : Parses (.run t.context t.depth) (t :: (as ++ ts))
  | ends {t : Spot} {phrase : Phrase} {as : List Spot} (hends : t.Ends phrase none)
      (h : Parses (.run phrase.inside.1 phrase.inside.2) as) : Parses phrase (as ++ [t])
  | leads {t : Spot} {phrase next : Phrase} {as bs : List Spot} (hends : t.Ends phrase (some next))
      (h : Parses (.run phrase.inside.1 phrase.inside.2) as) (hnext : Parses next bs) : Parses phrase (as ++ t :: bs)

namespace Spot

variable {t : Spot} {phrase : Phrase}

theorem Begins.kind_cases (h : t.Begins phrase) :
    (t.kind = .openBrace ∨ t.kind = .openParen ∨ t.kind = .openBracket ∨ t.kind = .templateHead) ∨ t.kind = .less := by
  cases h with
  | group hk hnew => exact .inl (hk.kind_cases hnew)
  | tag hk => exact .inr hk

theorem Begins.not_stops (h : t.Begins phrase) (region : Region) : region.stops t.kind = false := by
  rcases h.kind_cases with (hk | hk | hk | hk) | hk <;> rw [hk] <;> cases region <;> rfl

theorem Begins.unique {phrase' : Phrase} (h : t.Begins phrase) (h' : t.Begins phrase') : phrase = phrase' := by
  have hclash {region : Region} (hk : region.Opens t.kind) (hnew : t.kind ≠ .templateMiddle) : t.kind ≠ .less := by
    rcases hk.kind_cases hnew with hk | hk | hk | hk <;> rw [hk] <;> nofun
  cases h with
  | group hk hnew hg =>
    cases h' with
    | group _ _ hg' =>
      cases hg.symm.trans hg'
      rfl
    | tag hk' => exact absurd hk' (hclash hk hnew)
  | tag hk =>
    cases h' with
    | group hk' hnew => exact absurd hk (hclash hk' hnew)
    | tag => rfl

theorem Begins.less_of_admits {region : Region} (h : t.Begins phrase) (hk : region.admits t.kind) :
    region.isJsx = false ∧ phrase = .tag t.depth := by
  cases h with
  | group hopens hnew =>
    rcases hopens.kind_cases hnew with heq | heq | heq | heq <;> rw [heq] at hk <;> cases region <;> cases hk
  | tag hless =>
    rw [hless] at hk
    cases region <;> first | exact ⟨rfl, rfl⟩ | cases hk

theorem Ends.stops {next : Option Phrase} (h : t.Ends phrase next) : phrase.inside.1.stops t.kind := by
  cases h with
  | bracket hk => exact Region.stops_of_closer? hk
  | template hk | substitution hk | emptyElement hk | openingTag hk | children hk | closingTag hk => rw [hk]; rfl

theorem Ends.unique {next next' : Option Phrase} (h : t.Ends phrase next) (h' : t.Ends phrase next') :
    next = next' := by
  cases h <;> cases h' <;> first | rfl | simp_all [Region.closer?]

theorem Begins.isRun (h : t.Begins phrase) : phrase.isRun = false := by
  cases h <;> rfl

theorem Ends.isRun {next : Option Phrase} (h : t.Ends phrase next) : phrase.isRun = false := by
  cases h <;> rfl

theorem Ends.isRun_next {next : Phrase} (h : t.Ends phrase (some next)) : next.isRun = false := by
  cases h <;> rfl

end Spot

def Stopped (region : Region) (ts : List Spot) : Prop := ∃ t us, ts = t :: us ∧ region.stops t.kind

theorem Stopped.head {region : Region} {t : Spot} {us : List Spot} (h : Stopped region (t :: us)) :
    region.admits t.kind = false ∧ ∀ phrase, ¬ t.Begins phrase := by
  obtain ⟨u, vs, heq, hstops⟩ := h
  cases heq
  refine ⟨Region.not_admits_of_stops hstops, fun phrase hbegins => ?_⟩
  rw [hbegins.not_stops region] at hstops
  cases hstops

theorem Spot.Ends.same_end {t t' : Spot} {phrase : Phrase} {next next' : Option Phrase} {as as' bs bs' : List Spot}
    (h : t.Ends phrase next) (h' : t'.Ends phrase next') (heq : as ++ t :: bs = as' ++ t' :: bs')
    (hrun : Stopped phrase.inside.1 (t :: bs) → Stopped phrase.inside.1 (t' :: bs') → as = as') :
    as = as' ∧ t = t' ∧ next = next' ∧ bs = bs' := by
  obtain rfl := hrun ⟨t, bs, rfl, h.stops⟩ ⟨t', bs', rfl, h'.stops⟩
  obtain ⟨rfl, htail⟩ := List.cons_eq_cons.mp (List.append_cancel_left heq)
  exact ⟨rfl, rfl, h.unique h', htail⟩

namespace Parses

theorem run_cases {region : Region} {depth : Nat} {as : List Spot} (h : Parses (.run region depth) as) :
    as = [] ∨ ∃ t us, as = t :: us ∧ t.context = region ∧ t.depth = depth ∧
      ((region.admits t.kind ∧ Parses (.run region depth) us) ∨
        ∃ phrase bs cs, us = bs ++ cs ∧ t.Begins phrase ∧ Parses phrase bs ∧ Parses (.run region depth) cs) := by
  cases h with
  | nil => exact .inl rfl
  | plain hk h => exact .inr ⟨_, _, rfl, rfl, rfl, .inl ⟨hk, h⟩⟩
  | inner hbegins hphrase h => exact .inr ⟨_, _, rfl, rfl, rfl, .inr ⟨_, _, _, rfl, hbegins, hphrase, h⟩⟩
  | ends hends => cases hends
  | leads hends => cases hends

theorem end_cases {phrase : Phrase} {as : List Spot} (h : Parses phrase as) (hrun : phrase.isRun = false) :
    ∃ t bs cs next, as = bs ++ t :: cs ∧ t.Ends phrase next ∧ Parses (.run phrase.inside.1 phrase.inside.2) bs ∧
      ((next = none ∧ cs = []) ∨ ∃ q, next = some q ∧ Parses q cs) := by
  cases h with
  | nil | plain | inner => cases hrun
  | ends hends h => exact ⟨_, _, _, _, rfl, hends, h, .inl ⟨rfl, rfl⟩⟩
  | leads hends h hnext => exact ⟨_, _, _, _, rfl, hends, h, .inr ⟨_, rfl, hnext⟩⟩

theorem exists_head_of_tag {depth : Nat} {ts : List Spot} (h : Parses (.tag depth) ts) :
    ∃ t us, ts = t :: us ∧ t.context = .jsxTag ∧
      ∀ region : Region, region.isJsx = false → region.stops t.kind = false := by
  obtain ⟨t, bs, cs, next, rfl, hends, hrun, _⟩ := h.end_cases rfl
  rcases hrun.run_cases with rfl | ⟨u, us, rfl, hcontext, _, ⟨hk, _⟩ | ⟨phrase, _, _, _, hbegins, _⟩⟩
  · refine ⟨t, cs, rfl, ?_, fun region => Region.not_stops_of_jsxTag (.inr hends.stops)⟩
    cases hends <;> assumption
  · exact ⟨u, us ++ t :: cs, rfl, hcontext, fun region => Region.not_stops_of_jsxTag (.inl hk)⟩
  · exact ⟨u, us ++ t :: cs, rfl, hcontext, fun region _ => hbegins.not_stops region⟩

theorem not_plain {region : Region} {depth n : Nat} (hcode : region.isJsx = false) {as bs cs ds : List Spot}
    (has : Parses (.run region depth) as) (hbs : Stopped region bs) (hcs : Parses (.tag n) cs) :
    as ++ bs ≠ cs ++ ds := by
  intro heq
  obtain ⟨t, us, rfl, hcontext, hstops⟩ := hcs.exists_head_of_tag
  rcases has.run_cases with rfl | ⟨u, vs, rfl, hu, _⟩
  · obtain ⟨v, ws, rfl, hv⟩ := hbs
    cases heq
    rw [hstops region hcode] at hv
    cases hv
  · obtain ⟨rfl, _⟩ := List.cons.inj heq
    rw [← hu, hcontext] at hcode
    cases hcode

theorem eq_nil_of_stopped {region : Region} {depth : Nat} {as bs : List Spot} (h : Parses (.run region depth) as)
    (hstop : Stopped region (as ++ bs)) : as = [] := by
  rcases h.run_cases with rfl | ⟨t, us, rfl, _, _, hcases⟩
  · rfl
  · obtain ⟨hadmits, hbegins⟩ := hstop.head
    rcases hcases with ⟨hk, _⟩ | ⟨phrase, _, _, _, h, _⟩
    · rw [hadmits] at hk
      cases hk
    · exact absurd h (hbegins phrase)

theorem unique {phrase : Phrase} {as as' bs bs' : List Spot} (h : Parses phrase as) (h' : Parses phrase as')
    (heq : as ++ bs = as' ++ bs')
    (hstop : phrase.isRun → Stopped phrase.inside.1 bs ∧ Stopped phrase.inside.1 bs') : as = as' := by
  -- Only a run needs a token that stops it. Of what stands in a run, a less-than sign alone can be read in two ways,
  -- and `not_plain` tells them apart.
  induction h generalizing as' bs bs' with
  | nil =>
    obtain ⟨hbs, _⟩ := hstop rfl
    exact (h'.eq_nil_of_stopped (by rw [← heq]; exact hbs)).symm
  | @plain t ts hk h ih =>
    obtain ⟨hbs, hbs'⟩ := hstop rfl
    rcases h'.run_cases with rfl | ⟨u, us, rfl, _, _, hcases⟩
    · exact (plain hk h).eq_nil_of_stopped (by rw [heq]; exact hbs')
    · rw [List.cons_append, List.cons_append] at heq
      obtain ⟨rfl, htail⟩ := List.cons_eq_cons.mp heq
      rcases hcases with ⟨_, hus⟩ | ⟨phrase, cs, ds, rfl, hbegins, hcs, _⟩
      · rw [ih hus htail hstop]
      · obtain ⟨hcode, rfl⟩ := hbegins.less_of_admits hk
        rw [List.append_assoc] at htail
        exact absurd htail (not_plain hcode h hbs hcs)
  | @inner t phrase cs ts hbegins hphrase h ihphrase ih =>
    obtain ⟨hbs, hbs'⟩ := hstop rfl
    rcases h'.run_cases with rfl | ⟨u, us, rfl, _, _, hcases⟩
    · exact (inner hbegins hphrase h).eq_nil_of_stopped (by rw [heq]; exact hbs')
    · rw [List.cons_append, List.cons_append, List.append_assoc] at heq
      obtain ⟨rfl, htail⟩ := List.cons_eq_cons.mp heq
      rcases hcases with ⟨hk, hus⟩ | ⟨phrase', cs', ds', rfl, hbegins', hcs', hds'⟩
      · obtain ⟨hcode, rfl⟩ := hbegins.less_of_admits hk
        exact absurd htail.symm (not_plain hcode hus hbs' hphrase)
      · obtain rfl := hbegins.unique hbegins'
        rw [List.append_assoc] at htail
        obtain rfl := ihphrase hcs' htail (by simp [hbegins.isRun])
        rw [ih hds' (List.append_cancel_left htail) hstop]
  | @ends t phrase cs hends h ih =>
    obtain ⟨t', cs', ds', next', rfl, hends', h', hnext'⟩ := h'.end_cases hends.isRun
    simp only [List.append_assoc, List.cons_append, List.nil_append] at heq
    obtain ⟨rfl, rfl, rfl, _⟩ := hends.same_end hends' heq fun hs hs' => ih h' heq fun _ => ⟨hs, hs'⟩
    rcases hnext' with ⟨_, rfl⟩ | ⟨_, hsome, _⟩
    · rfl
    · cases hsome
  | @leads t phrase next cs ds hends h hnext ih ihnext =>
    obtain ⟨t', cs', ds', next', rfl, hends', h', hnext'⟩ := h'.end_cases hends.isRun
    simp only [List.append_assoc, List.cons_append] at heq
    obtain ⟨rfl, rfl, rfl, htail⟩ := hends.same_end hends' heq fun hs hs' => ih h' heq fun _ => ⟨hs, hs'⟩
    rcases hnext' with ⟨hnone, _⟩ | ⟨q, hsome, hq⟩
    · cases hnone
    · cases hsome
      rw [ihnext hq htail (by simp [hends.isRun_next])]

theorem prepend {phrase : Phrase} {as ts : List Spot} (h : Parses phrase ts)
    (hitem : ∀ us, Parses (.run phrase.inside.1 phrase.inside.2) us →
      Parses (.run phrase.inside.1 phrase.inside.2) (as ++ us)) :
    Parses phrase (as ++ ts) := by
  cases h with
  | nil => exact hitem _ .nil
  | plain hk h => exact hitem _ (.plain hk h)
  | inner hbegins hphrase h => exact hitem _ (.inner hbegins hphrase h)
  | ends hends h =>
    rw [← List.append_assoc]
    exact .ends hends (hitem _ h)
  | leads hends h hnext =>
    rw [← List.append_assoc]
    exact .leads hends (hitem _ h) hnext

end Parses

end ModuleLowering
