import ModuleLowering.Proofs.Role.Outline
import ModuleLowering.Proofs.Scan.Lead

/-!
Scanned streams: what holds of the tokens of every source that `scan` accepts. All that reads or rewrites
a stream rests on these facts and on nothing else of the scanner.
-/

namespace ModuleLowering

open Text

namespace Stream

/-- The tokens stand in the source in order, and brackets close around deeper tokens. -/
structure WellFormed (source : List Char) (s : Stream) : Prop where
  stop_eq : s.stop = byteLength source
  placed : Placed source (s.tokens.toList.map Token.place)
  lead_le : ∀ (i : Nat) (t : Token), s.tokens[i]? = some t → prologueOffset source ≤ t.start
  closes : ∀ i j, s.closer? i = some j →
    (∃ (region : Region) (kind : Kind), region.closer? = some kind ∧ s.isAt j kind) ∧
    ∀ (k : Nat) (t : Token), i < k → k < j → s.tokens[k]? = some t → 0 < t.depth
  brace : ∀ i, s.isAt i .openBrace → ∃ j, s.closer? i = some j ∧ s.isAt j .closeBrace
  steady : ∀ (i : Nat) (a b : Token), s.tokens[i]? = some a → s.tokens[i + 1]? = some b →
    a.kind.isSteady → b.kind.isSteady → a.isTopLevel = b.isTopLevel

@[simp] theorem before?_succ (s : Stream) (i : Nat) : s.before? (i + 1) = s.tokens[i]? := by simp [before?]

theorem offsetAt_eq {s : Stream} {i : Nat} {t : Token} (ht : s.tokens[i]? = some t) :
    s.offsetAt i = t.start := by
  rw [offsetAt, ht]
  rfl

theorem getElem?_outline {s r : Stream} (h : s.outline = r.outline) (i : Nat) :
    s.tokens[i]?.map Token.outline = r.tokens[i]?.map Token.outline := by
  rw [← Array.getElem?_map, ← Array.getElem?_map]
  exact congrArg (·.tokens[i]?) h

theorem map_eq_of_outline {s r : Stream} (h : s.outline = r.outline) {α : Type} (f : Token → α)
    (hf : ∀ t, f t.outline = f t) : s.tokens.map f = r.tokens.map f := by
  have := congrArg (fun o => o.tokens.map f) h
  simpa [outline, Function.comp_def, hf] using this

theorem exists_of_outline {s r : Stream} (h : s.outline = r.outline) {i : Nat} {t : Token}
    (ht : s.tokens[i]? = some t) : ∃ u, r.tokens[i]? = some u ∧ u.outline = t.outline := by
  have := getElem?_outline h i
  rw [ht] at this
  exact Option.map_eq_some_iff.1 this.symm

theorem closer?_outline {s r : Stream} (h : s.outline = r.outline) (i : Nat) :
    s.closer? i = r.closer? i := by
  have := congrArg (Option.bind · (·.closer? i)) (getElem?_outline h i)
  simpa [Option.bind_map, Function.comp_def, closer?, Token.closer?, Token.outline] using this

theorem isAt_outline {s r : Stream} (h : s.outline = r.outline) (i : Nat) (kind : Kind) :
    s.isAt i kind = r.isAt i kind := by
  have := congrArg (Option.map Token.kind) (getElem?_outline h i)
  have : s.kind? i = r.kind? i := by simpa [Function.comp_def, kind?] using this
  rw [isAt, isAt, this]

theorem closes_of_bracketed {r : Stream} (h : Bracketed r.tokens []) {i j : Nat} (hj : r.closer? i = some j) :
    (∃ (region : Region) (kind : Kind), region.closer? = some kind ∧ r.isAt j kind) ∧
      ∀ (k : Nat) (t : Token), i < k → k < j → r.tokens[k]? = some t → 0 < t.depth := by
  obtain ⟨a, ha, haj⟩ := Option.bind_eq_some_iff.1 hj
  obtain ⟨hpair, _⟩ := Option.filter_eq_some_iff.1 haj
  have hlt := lt_of_closer? hj
  rcases h.mates i a j ha hpair with hmates | hmates
  · obtain ⟨_, b, region, _, hb, _, hcloser, _⟩ := hmates.brackets
    refine ⟨⟨region, b.kind, hcloser, by simp [isAt, kind?, hb]⟩, ?_⟩
    intro k t hik hkj ht
    exact Nat.lt_of_le_of_lt (Nat.zero_le _) (hmates.inner k a t ha hik hkj ht)
  · have := hmates.lt
    omega

theorem brace_of_bracketed {r : Stream} (h : Bracketed r.tokens []) {i : Nat} (hi : r.isAt i .openBrace) :
    ∃ j, r.closer? i = some j ∧ r.isAt j .closeBrace := by
  simp only [isAt, kind?, decide_eq_true_eq, Option.map_eq_some_iff] at hi
  obtain ⟨a, ha, hk⟩ := hi
  cases hp : a.pair with
  | none =>
    obtain ⟨_, _, hmem⟩ := h.paired i a ha (by rw [hk]; rfl) hp
    cases hmem
  | some j =>
    rcases h.mates i a j ha hp with hmates | hmates
    · obtain ⟨a', b, region, ha', hb, hopens, hcloser, _⟩ := hmates.brackets
      rw [ha] at ha'
      cases ha'
      refine ⟨j, ?_, ?_⟩
      · have hlt := hmates.lt
        simp [closer?, ha, Token.closer?, hp, Option.filter, hlt]
      · rw [hk] at hopens
        have : b.kind = .closeBrace := by cases region <;> simp_all [Region.Opens, Region.closer?]
        simp [isAt, kind?, hb, this]
    · obtain ⟨_, b, _, _, hb, _, hcloser, _⟩ := hmates.brackets
      rw [ha] at hb
      cases hb
      have := (Region.isStructural_of_closer? hcloser).2
      rw [hk] at this
      cases this

theorem wellFormed_of_scan {source : List Char} {s : Stream} (h : scan source = .ok s) :
    s.WellFormed source := by
  obtain ⟨r, hr, ho⟩ := outline_of_scan h
  have hbracketed := bracketed_of_read hr
  have hplaces : s.tokens.map Token.place = r.tokens.map Token.place :=
    map_eq_of_outline ho Token.place fun _ => rfl
  refine ⟨?_, ?_, ?_, ?_, ?_, ?_⟩
  · obtain ⟨_, _, _, rfl⟩ := read_eq_ok hr
    exact congrArg Stream.stop ho
  · rw [← Array.toList_map, hplaces, Array.toList_map]
    exact placed_of_read hr
  · intro i t ht
    obtain ⟨u, hu, hut⟩ := exists_of_outline ho ht
    have hstart := congrArg Token.start hut
    change u.start = t.start at hstart
    rw [← hstart]
    refine prologueOffset_le_of_read hr u.place (List.mem_map_of_mem ?_)
    exact Array.mem_toList_iff.2 (Array.mem_of_getElem? hu)
  · intro i j hj
    rw [closer?_outline ho] at hj
    obtain ⟨⟨region, kind, hcloser, hat⟩, hdeep⟩ := closes_of_bracketed hbracketed hj
    refine ⟨⟨region, kind, hcloser, by rw [isAt_outline ho, hat]⟩, ?_⟩
    intro k t hik hkj ht
    obtain ⟨u, hu, hut⟩ := exists_of_outline ho ht
    have hdepth := congrArg Token.depth hut
    change u.depth = t.depth at hdepth
    rw [← hdepth]
    exact hdeep k u hik hkj hu
  · intro i hi
    rw [isAt_outline ho] at hi
    obtain ⟨j, hj, hcloser⟩ := brace_of_bracketed hbracketed hi
    exact ⟨j, by rw [closer?_outline ho, hj], by rw [isAt_outline ho, hcloser]⟩
  · intro i a b ha hb hka hkb
    obtain ⟨u, hu, hua⟩ := exists_of_outline ho ha
    obtain ⟨v, hv, hvb⟩ := exists_of_outline ho hb
    have hku := congrArg Token.kind hua
    have hkv := congrArg Token.kind hvb
    rw [Token.kind_outline, Token.kind_outline] at hku hkv
    obtain ⟨hdepth, hcontext⟩ := hbracketed.steady i u v hu hv (by rwa [hku]) (by rwa [hkv])
    rw [← a.isTopLevel_outline, ← b.isTopLevel_outline, ← hua, ← hvb, u.isTopLevel_outline,
      v.isTopLevel_outline, Token.isTopLevel, Token.isTopLevel, hdepth, hcontext]

namespace WellFormed

variable {source : List Char} {s : Stream} (h : s.WellFormed source)
include h

theorem standsIn {i : Nat} {t : Token} (ht : s.tokens[i]? = some t) : StandsIn source t.place :=
  h.placed.standsIn _ (List.mem_map_of_mem (Array.mem_toList_iff.2 (Array.mem_of_getElem? ht)))

theorem start_lt_stop {i : Nat} {t : Token} (ht : s.tokens[i]? = some t) : t.start < t.stop := by
  have : 0 < t.text.utf8ByteSize := (h.standsIn ht).size_pos
  unfold Token.stop
  omega

theorem stop_le_start {i j : Nat} {a b : Token} (ha : s.tokens[i]? = some a) (hb : s.tokens[j]? = some b)
    (hij : i < j) : a.stop ≤ b.start := by
  have hi := lt_size_of_getElem? ha
  have hj := lt_size_of_getElem? hb
  have hpair := List.pairwise_iff_getElem.1 h.placed.ordered i j (by simpa using hi) (by simpa using hj) hij
  rw [Array.getElem?_eq_getElem hi] at ha
  rw [Array.getElem?_eq_getElem hj] at hb
  simpa [Option.some.inj ha, Option.some.inj hb, Token.place, Token.stop] using hpair

theorem index_eq_of_start {i j : Nat} {a b : Token} (ha : s.tokens[i]? = some a) (hb : s.tokens[j]? = some b)
    (hab : a.start = b.start) : i = j := by
  have hlt := h.start_lt_stop ha
  have hlt' := h.start_lt_stop hb
  rcases Nat.lt_trichotomy i j with hij | hij | hij
  · have := h.stop_le_start ha hb hij
    omega
  · exact hij
  · have := h.stop_le_start hb ha hij
    omega

theorem stopBefore_le_offsetAt {i j : Nat} (hij : i ≤ j) (hj : j ≤ s.tokens.size) :
    s.stopBefore i ≤ s.offsetAt j := by
  unfold stopBefore before?
  split
  · exact Nat.zero_le _
  · have hi : i - 1 < s.tokens.size := by omega
    have ha := Array.getElem?_eq_getElem hi
    rw [ha, Option.map_some, Option.getD_some, offsetAt]
    cases hb : s.tokens[j]? with
    | none =>
      rw [Option.map_none, Option.getD_none, h.stop_eq]
      exact (h.standsIn ha).stop_le
    | some b => exact h.stop_le_start ha hb (by omega)

theorem offsetAt_lt_stopBefore {i j : Nat} (hij : i < j) (hj : j ≤ s.tokens.size) :
    s.offsetAt i < s.stopBefore j := by
  have ha := Array.getElem?_eq_getElem (show i < s.tokens.size by omega)
  have hb := Array.getElem?_eq_getElem (show j - 1 < s.tokens.size by omega)
  rw [offsetAt, stopBefore, before?, if_neg (by omega), ha, hb]
  simp only [Option.map_some, Option.getD_some]
  have hstart := h.start_lt_stop ha
  by_cases hlast : i = j - 1
  · subst hlast
    exact hstart
  · have := h.stop_le_start ha hb (by omega)
    have := h.start_lt_stop hb
    omega

theorem stopBefore_le_stopBefore {i j : Nat} (hij : i ≤ j) (hj : j ≤ s.tokens.size) :
    s.stopBefore i ≤ s.stopBefore j := by
  rcases Nat.eq_or_lt_of_le hij with rfl | hlt
  · exact Nat.le_refl _
  · have := h.stopBefore_le_offsetAt (Nat.le_refl i) (by omega)
    have := h.offsetAt_lt_stopBefore hlt hj
    omega

theorem offsetAt_lt_offsetAt {i j : Nat} (hij : i < j) (hj : j ≤ s.tokens.size) :
    s.offsetAt i < s.offsetAt j := by
  have := h.offsetAt_lt_stopBefore hij hj
  have := h.stopBefore_le_offsetAt (Nat.le_refl j) hj
  omega

theorem isBoundary_offsetAt {i : Nat} (hi : i < s.tokens.size) : IsBoundary source (s.offsetAt i) := by
  have ha := Array.getElem?_eq_getElem hi
  rw [offsetAt, ha]
  exact (h.standsIn ha).isBoundary_start

theorem isBoundary_stopBefore {i : Nat} (hi : i ≤ s.tokens.size) : IsBoundary source (s.stopBefore i) := by
  unfold stopBefore before?
  split
  · exact isBoundary_byteLength [] source
  · have ha := Array.getElem?_eq_getElem (show i - 1 < s.tokens.size by omega)
    rw [ha]
    exact (h.standsIn ha).isBoundary_stop

theorem lead_le_offsetAt {i : Nat} (hi : i < s.tokens.size) : prologueOffset source ≤ s.offsetAt i := by
  have ha := Array.getElem?_eq_getElem hi
  rw [offsetAt, ha]
  exact h.lead_le i _ ha

end WellFormed

end Stream

end ModuleLowering
