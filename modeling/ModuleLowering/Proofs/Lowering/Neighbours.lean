import Mathlib.Data.List.Pairwise
import ModuleLowering.Proofs.Lowering.Replacement
import ModuleLowering.Proofs.Text.Between

/-!
Neighbours: two tokens between which there is nothing but import statements and export lists. Whether a semicolon
stands between them after lowering is decided by the statements that leave code behind.
-/

namespace ModuleLowering

open Text

namespace Stream

variable {s : Stream} {source : List Char}

namespace WellFormed

variable (h : s.WellFormed source)
include h

theorem le_of_stopBefore_le {i k : Nat} (hi : i < s.tokens.size)
    (hle : s.stopBefore (i + 1) ≤ s.stopBefore (k + 1)) :
    i ≤ k := by
  apply Nat.le_of_not_lt
  intro hlt
  have : s.stopBefore (k + 1) ≤ s.offsetAt i := h.stopBefore_le_offsetAt hlt (Nat.le_of_lt hi)
  have := h.offsetAt_lt_stopBefore (Nat.lt_add_one i) hi
  omega

theorem lt_of_stopBefore_le {j k : Nat} (hk : k < s.tokens.size) (hle : s.stopBefore (k + 1) ≤ s.offsetAt j) :
    k < j := by
  apply Nat.lt_of_not_le
  intro hjk
  have := h.offsetAt_lt_stopBefore (Nat.lt_add_one_of_le hjk) hk
  omega

theorem within_spanOf_iff {a b k : Nat} (hab : a < b) (hb : b ≤ s.tokens.size) (hk : k < s.tokens.size) :
    (s.spanOf k (k + 1)).Within (s.spanOf a b) ↔ a ≤ k ∧ k < b := by
  constructor
  · rintro ⟨hstart, hstop⟩
    rw [s.spanOf_of_lt (Nat.lt_add_one k), s.spanOf_of_lt hab] at hstart hstop
    dsimp only at hstart hstop
    constructor
    · apply Nat.le_of_not_lt
      intro hlt
      have := h.offsetAt_lt_offsetAt hlt (by omega)
      omega
    · apply Nat.lt_of_not_le
      intro hle
      have := h.stopBefore_le_offsetAt hle (Nat.le_of_lt hk)
      have := h.offsetAt_lt_stopBefore (Nat.lt_add_one k) hk
      omega
  · rintro ⟨hak, hkb⟩
    exact h.within_spanOf hak (Nat.lt_add_one k) hkb hb

end WellFormed

theorem Readings.eq_of_shared {stop : Nat} {items : List ModuleItem} {rs : List Reading}
    (h : s.Readings stop items rs) {r r' : Reading} (hr : r ∈ rs) (hr' : r' ∈ rs) {k : Nat}
    (hk : r.first ≤ k ∧ k < r.next) (hk' : r'.first ≤ k ∧ k < r'.next) : r = r' := by
  by_contra hne
  have : Std.Symm fun r r' : Reading => r.next ≤ r'.first ∨ r'.next ≤ r.first := ⟨fun _ _ => Or.symm⟩
  have hordered : rs.Pairwise fun r r' => r.next ≤ r'.first ∨ r'.next ≤ r.first := h.ordered.imp .inl
  have := hordered.forall hr hr' hne
  omega

end Stream

/-- Two tokens are parted by statements that are replaced as a whole: there is a token between them, every such
token is part of one of these statements, and they themselves are not. -/
structure Parted (s : Stream) (m : SourceModule) (i j : Nat) (p q : Token) : Prop where
  left : s.tokens[i]? = some p
  right : s.tokens[j]? = some q
  lt : i + 1 < j
  between : ∀ k < j, i < k → ∀ t ∈ s.tokens[k]?, ∃ c ∈ m.consumed, t.span.Within c
  leftOut : ∀ c ∈ m.consumed, ¬ p.span.Within c
  rightOut : ∀ c ∈ m.consumed, ¬ q.span.Within c

instance (s t : Span) : Decidable (s.Within t) := inferInstanceAs (Decidable (_ ∧ _))

instance (s : Stream) (m : SourceModule) (i j : Nat) (p q : Token) : Decidable (Parted s m i j p q) :=
  decidable_of_iff
    ((s.tokens[i]? = some p ∧ s.tokens[j]? = some q ∧ i + 1 < j) ∧
      (∀ k < j, i < k → ∀ t ∈ s.tokens[k]?, ∃ c ∈ m.consumed, t.span.Within c) ∧
      (∀ c ∈ m.consumed, ¬ p.span.Within c) ∧ ∀ c ∈ m.consumed, ¬ q.span.Within c)
    ⟨fun ⟨⟨hp, hq, hlt⟩, hbetween, hleft, hright⟩ => ⟨hp, hq, hlt, hbetween, hleft, hright⟩,
      fun h => ⟨⟨h.left, h.right, h.lt⟩, h.between, h.leftOut, h.rightOut⟩⟩

theorem Replaced.cases_of_within {source : List Char} {s : Stream} {m : SourceModule} (hs : s.WellFormed source)
    {k : Nat} {t : Token} (ht : s.tokens[k]? = some t) {span : Span} (h : Replaced s m span)
    (hin : t.span.Within span) :
    span ∈ m.consumed ∨ t.kind = .keyword .«export» ∨
      t.kind = .keyword .default ∨ span = t.span := by
  have hk := lt_size_of_getElem? ht
  have hkind {i : Nat} {word : Keyword} (hi : s.isAt i (.keyword word)) (hki : k = i) : t.kind = .keyword word := by
    subst hki
    exact Stream.kind_eq_of_isAt (Stream.isAt_iff.2 ⟨t, ht, rfl⟩) hi
  rw [Stream.span_eq_spanOf ht] at hin ⊢
  cases h with
  | importStatement hitem => exact .inl (SourceModule.mem_consumed.2 ⟨_, hitem, rfl⟩)
  | exportList hitem hspan => exact .inl (SourceModule.mem_consumed.2 ⟨_, hitem, hspan⟩)
  | @exportKeyword _ i _ _ hi =>
    rw [← s.spanOf_of_lt (Nat.lt_add_one i),
      hs.within_spanOf_iff (Nat.lt_add_one i) (Stream.lt_size_of_isAt hi) hk] at hin
    exact .inr (.inl (hkind hi (by omega)))
  | @defaultKeywords _ i _ _ hi hdefault =>
    rw [← s.spanOf_of_lt (by omega), hs.within_spanOf_iff (by omega) (Stream.lt_size_of_isAt hdefault) hk] at hin
    by_cases hfirst : k = i
    · exact .inr (.inl (hkind hi hfirst))
    · exact .inr (.inr (.inl (hkind hdefault (by omega))))
  | @name u i _ hu =>
    rw [Stream.span_eq_spanOf hu, hs.within_spanOf_iff (Nat.lt_add_one i) (lt_size_of_getElem? hu) hk] at hin
    obtain rfl : k = i := by omega
    exact .inr (.inr (.inr (Stream.span_eq_spanOf hu)))

section

variable {source : List Char} {s : Stream} {m : SourceModule} {es : List Edit}

theorem edit_at_token (hs : scan source = .ok s) (hm : s.toModule = .ok m)
    (hes : (Context.ofModule source s m true).edits m = .ok es) {k : Nat} {t : Token} (ht : s.tokens[k]? = some t)
    (hout : ∀ c ∈ m.consumed, ¬ t.span.Within c)
    (hexport : t.kind ≠ .keyword .«export») (hdefault : t.kind ≠ .keyword .default) {e : Edit} (he : e ∈ es) :
    e.span.isEmpty ∨ e.span = t.span ∨ e.span.stop ≤ t.start ∨ t.stop ≤ e.span.start := by
  have hformed := Stream.wellFormed_of_scan hs
  obtain ⟨stop, rs, hrs⟩ := Stream.readings_of_toModule hm
  by_cases hin : t.span.Within e.span
  · rcases (hrs.edits_in (x := Context.ofModule source s m true) hformed rfl hes e he).2 with hempty | hreplaced
    · exact .inl hempty
    · rcases hreplaced.cases_of_within hformed ht hin with hmem | hkind | hkind | hsame
      · exact absurd hin (hout e.span hmem)
      · exact absurd hkind hexport
      · exact absurd hkind hdefault
      · exact .inr (.inl hsame)
  · exact .inr (.inr (hrs.apart_token (x := Context.ofModule source s m true) hformed rfl hes ht he hin))

end

/-- A semicolon stands between two offsets after lowering: some statement between them leaves code behind, or code
is appended to a declaration that ends at the first, or the source has a semicolon there which is in no statement
that is replaced. -/
inductive Separated (source : List Char) (m : SourceModule) (a b : Nat) : Prop
  | written {item : ModuleItem} {span : Span} (hitem : item ∈ m.items) (hspan : Context.consumedSpan item = some span)
      (hin : span.Within ⟨a, b⟩) (hcode : item.vanishes m.items = false)
  | appended {st : ExportStatement} (hst : .exports st ∈ m.items) (happends : st.appendsAt? = some a)
  | kept {before after : List Char} (hsource : source = before ++ ';' :: after)
      (hcovers : (Span.mk a b).Covers (byteLength before)) (hout : ∀ c ∈ m.consumed, ¬ c.Covers (byteLength before))

namespace Parted

variable {source : List Char} {s : Stream} {m : SourceModule} {i j : Nat} {p q : Token} {stop : Nat}
  {rs : List Stream.Reading}

section

variable (h : Parted s m i j p q)
include h

theorem stop_eq : p.stop = s.stopBefore (i + 1) := by
  rw [Stream.stopBefore, Stream.before?_succ, h.left]
  rfl

theorem start_eq : q.start = s.offsetAt j := (Stream.offsetAt_eq h.right).symm

variable (hs : s.WellFormed source) (hrs : s.Readings stop m.items rs)
include hs hrs

theorem exists_reading {k : Nat} (hik : i < k) (hkj : k < j) :
    ∃ r ∈ rs, Context.consumedSpan r.item = some (s.spanOf r.first r.next) ∧ r.first ≤ k ∧ k < r.next := by
  have hk := hkj.trans (lt_size_of_getElem? h.right)
  obtain ⟨span, hmem, hin⟩ := h.between k hkj hik _ (Array.getElem?_eq_getElem hk)
  obtain ⟨item, hitem, hspan⟩ := SourceModule.mem_consumed.1 hmem
  rw [hrs.items_eq] at hitem
  obtain ⟨r, hr, rfl⟩ := List.mem_map.1 hitem
  obtain rfl := Stream.consumedSpan_of_reads (hrs.reads r hr) (hrs.lt r hr) hspan
  refine ⟨r, hr, hspan, ?_⟩
  rwa [Stream.span_eq_spanOf (Array.getElem?_eq_getElem hk),
    hs.within_spanOf_iff (hrs.lt r hr) ((hrs.reads r hr).next_le_size hs) hk] at hin

theorem eq_of_declaration {r : Stream.Reading} (hr : r ∈ rs) (hnone : Context.consumedSpan r.item = none) {k : Nat}
    (hk : r.first ≤ k ∧ k < r.next) (hstart : p.stop ≤ s.stopBefore (k + 1))
    (hstop : s.stopBefore (k + 1) ≤ q.start) : k = i := by
  have hnext := (hrs.reads r hr).next_le_size hs
  rw [h.stop_eq] at hstart
  rw [h.start_eq] at hstop
  have hik := hs.le_of_stopBefore_le (lt_size_of_getElem? h.left) hstart
  have hkj := hs.lt_of_stopBefore_le (by omega) hstop
  apply Nat.le_antisymm _ hik
  apply Nat.le_of_not_lt
  intro hlt
  obtain ⟨r', hr', hspan, hk'⟩ := h.exists_reading hs hrs hlt hkj
  obtain rfl := hrs.eq_of_shared hr hr' hk hk'
  rw [hnone] at hspan
  cases hspan

theorem append_of_declaration (hp : p.endsExpression) {r : Stream.Reading} (hr : r ∈ rs)
    (hnone : Context.consumedSpan r.item = none) {st : ExportStatement} {c : Change}
    (hc : s.DeclarationChange r.first r.next st c) (hin : c.span.Within ⟨p.stop, q.start⟩) :
    c.span = .point p.stop ∧ st.appendsAt? = some p.stop ∧ ';' ∈ c.edit.text.toList := by
  have hnext := (hrs.reads r hr).next_le_size hs
  have hlt := hrs.lt r hr
  obtain ⟨hstart, hstop⟩ := hin
  dsimp only at hstart hstop
  cases hc with
  | keywords hn hle hspan =>
    rw [hspan, s.spanOf_of_lt hn] at hstart hstop
    dsimp only at hstart hstop
    have hfirst := hs.offsetAt_lt_stopBefore (Nat.lt_add_one r.first) (by omega)
    have hlast := hs.stopBefore_le_stopBefore (i := r.first + 1) hn (by omega)
    have heq := h.eq_of_declaration hs hrs hr hnone (k := r.first) (by omega) (by omega) (by omega)
    rw [h.stop_eq, ← heq] at hstart
    omega
  | @initializer k hk hkn hequals hspan =>
    rw [hspan, Stream.spanOf_self] at hstart hstop
    obtain rfl := h.eq_of_declaration hs hrs hr hnone (k := k) (by omega) hstart hstop
    have hkind := Stream.kind_eq_of_isAt (Stream.isAt_iff.2 ⟨p, h.left, rfl⟩) hequals
    simp [Token.endsExpression, hkind, Kind.isValueKeyword] at hp
  | append hspan hst htext =>
    obtain ⟨k, hk⟩ : ∃ k, r.next = k + 1 := ⟨r.next - 1, by omega⟩
    rw [Stream.spanOf_self, hk] at hspan
    rw [hspan] at hstart hstop hst
    obtain rfl := h.eq_of_declaration hs hrs hr hnone (k := k) (by omega) hstart hstop
    rw [← h.stop_eq] at hspan hst
    exact ⟨hspan, hst, htext⟩

theorem not_within_of_reference {x : Context} (hx : x.stream = s) {references : List Edit}
    (hreferences : (x.referencesEdits (m.items.filterMap Context.consumedSpan)).toExcept = .ok references) {e : Edit}
    (he : e ∈ references) : ¬ e.span.Within ⟨p.stop, q.start⟩ := by
  subst hx
  rintro ⟨hstart, hstop⟩
  obtain ⟨k, n, hspan, _, hkn, hn, hrewrites⟩ :=
    (Stream.chain_referencesEdits hreferences).exists_of_mem (List.mem_map_of_mem he)
  obtain rfl : n = k + 1 := hrewrites.1
  rw [hspan, x.stream.spanOf_of_lt (Nat.lt_add_one k)] at hstart hstop
  dsimp only at hstart hstop
  rw [h.stop_eq] at hstart
  rw [h.start_eq] at hstop
  have hik : i < k := by
    apply Nat.lt_of_not_le
    intro hki
    have := hs.offsetAt_lt_stopBefore (Nat.lt_add_one_of_le hki) (lt_size_of_getElem? h.left)
    omega
  obtain ⟨r, hr, hconsumed, hk⟩ := h.exists_reading hs hrs hik (hs.lt_of_stopBefore_le hn hstop)
  have hapart := (Stream.Part.statement hconsumed).apart hs ((hrs.reads r hr).next_le_size hs) (hrs.lt r hr)
    (hrs.mem_items hr) (hrs.consumed_ordered hs) (hrs.consumed_le hs) hrewrites
  omega

theorem item_cases (hp : p.endsExpression) {x : Context} {names : NameRegistry}
    (hnamed : Requirements.Named m.items names x.requirements) {items : List Edit}
    (hitems : (x.itemEdits m.items).toExcept = .ok items) {e : Edit} (he : e ∈ items)
    (hin : e.span.Within ⟨p.stop, q.start⟩) :
    (∃ item ∈ m.items, Context.consumedSpan item = some e.span ∧
        (';' ∈ e.text.toList ↔ item.vanishes m.items = false)) ∨
      (e.span = .point p.stop ∧ (∃ st, .exports st ∈ m.items ∧ st.appendsAt? = some p.stop) ∧
        ';' ∈ e.text.toList) := by
  obtain ⟨zs, hzs, he⟩ := Progress.exists_of_mem_collect hitems he
  obtain ⟨item, hitem, hzs⟩ := List.mem_map.1 hzs
  obtain ⟨changes, hchanges, rfl⟩ := map_eq_ok_iff.1 hzs
  obtain ⟨c, hc, rfl⟩ := List.mem_map.1 he
  have hordered := hrs.starts_ordered hs
  cases hspan : Context.consumedSpan item with
  | some span =>
    left
    obtain ⟨lines, rfl, hlines, hnil⟩ := Context.replacement_of_consumed hnamed hordered hitem hspan hchanges
    obtain rfl := List.mem_singleton.1 hc
    refine ⟨item, hitem, hspan, ?_⟩
    rw [Change.semicolon_replace_iff hlines, Ne, hnil, Bool.not_eq_true]
  | none =>
    right
    cases item with
    | imports st => cases hspan
    | exports st =>
      obtain ⟨r, hr, hr', _, hform⟩ := hrs.exportForm hitem
      rw [← hr'] at hspan
      obtain ⟨hpoint, happends, htext⟩ := h.append_of_declaration hs hrs hp hr hspan
        (hform.change_cases hchanges hc (by rwa [hr'] at hspan)) hin
      exact ⟨hpoint, ⟨st, hitem, happends⟩, htext⟩

end

section

variable (h : Parted s m i j p q) (hs : scan source = .ok s) (hm : s.toModule = .ok m) {es : List Edit}
  (hes : (Context.ofModule source s m true).edits m = .ok es)
include h hs hm hes

theorem edit_cases (hp : p.endsExpression) {e : Edit} (he : e ∈ es) (hin : e.span.Within ⟨p.stop, q.start⟩) :
    (∃ item ∈ m.items, Context.consumedSpan item = some e.span ∧
        (';' ∈ e.text.toList ↔ item.vanishes m.items = false)) ∨
      (e.span = .point p.stop ∧ (∃ st, .exports st ∈ m.items ∧ st.appendsAt? = some p.stop) ∧
        ';' ∈ e.text.toList) := by
  have hformed := Stream.wellFormed_of_scan hs
  obtain ⟨stop, rs, hrs⟩ := Stream.readings_of_toModule hm
  obtain ⟨items, references, hitems, hreferences, rfl⟩ := Context.exists_of_edits hes
  rcases List.mem_append.1 he with he | he
  · rcases List.mem_append.1 he with he | he
    · exact h.item_cases hformed hrs hp (Requirements.named_allocate m.items (.ofStream s)) hitems he hin
    · exact absurd hin (h.not_within_of_reference hformed hrs rfl hreferences he)
  · rw [List.mem_singleton.1 he] at hin
    have hstart : p.stop ≤ prologueOffset source := hin.1
    have := hformed.lead_le i p h.left
    have := hformed.start_lt_stop h.left
    omega

theorem edit_at_left (hp : p.endsExpression) {e : Edit} (he : e ∈ es) (hlt : e.span.start < p.stop) :
    e.span.stop ≤ p.stop := by
  have hexport : p.kind ≠ .keyword .«export» := by
    intro hkind
    simp [Token.endsExpression, hkind, Kind.isValueKeyword, Keyword.isValue] at hp
  have hdefault : p.kind ≠ .keyword .default := by
    intro hkind
    simp [Token.endsExpression, hkind, Kind.isValueKeyword, Keyword.isValue] at hp
  have hle := p.start_le_stop
  rcases edit_at_token hs hm hes h.left h.leftOut hexport hdefault he with hempty | hsame | hbefore | hafter
  · have : e.span.start = e.span.stop := by simpa [Span.isEmpty] using hempty
    omega
  · rw [hsame]
    exact Nat.le_refl _
  · omega
  · omega

theorem edit_at_right (hq : q.continuesExpression) {e : Edit} (he : e ∈ es) (hlt : q.start < e.span.stop) :
    q.start ≤ e.span.start := by
  have hexport : q.kind ≠ .keyword .«export» := by
    intro hkind
    simp [Token.continuesExpression, hkind] at hq
  have hdefault : q.kind ≠ .keyword .default := by
    intro hkind
    simp [Token.continuesExpression, hkind] at hq
  have hle := q.start_le_stop
  rcases edit_at_token hs hm hes h.right h.rightOut hexport hdefault he with hempty | hsame | hbefore | hafter
  · have : e.span.start = e.span.stop := by simpa [Span.isEmpty] using hempty
    omega
  · rw [hsame]
    exact Nat.le_refl _
  · omega
  · omega

theorem becomes (hp : p.endsExpression) (hq : q.continuesExpression) :
    ∃ text, Becomes source (es.mergeSort Edit.le) (applyEdits source es) p.stop q.start text := by
  have hformed := Stream.wellFormed_of_scan hs
  obtain ⟨stop, rs, hrs⟩ := Stream.readings_of_toModule hm
  have hin := hrs.edits_in (x := Context.ofModule source s m true) hformed rfl hes
  have hapart := hrs.edits_apart (x := Context.ofModule source s m true) hformed rfl hes
  have hle := hformed.stop_le_start h.left h.right (Nat.lt_of_succ_lt h.lt)
  have hstop := hformed.isBoundary_stopBefore (i := i + 1) (lt_size_of_getElem? h.left)
  have hstart := hformed.isBoundary_offsetAt (lt_size_of_getElem? h.right)
  rw [← h.stop_eq] at hstop
  rw [← h.start_eq] at hstart
  obtain ⟨before, between, after, hsource, hbefore, hbetween⟩ := exists_between hstop hstart hle
  have hwoven : Woven 0 source (es.mergeSort Edit.le) (applyEdits source es) :=
    woven_applyEdits (fun e he => (hin e he).1) hapart
  refine hwoven.becomes hsource hbefore hbetween ?_ (sequential_of_apart (fun e he => (hin e he).1) hapart) ?_ ?_
  · exact fun e he => (hin e (List.mem_mergeSort.1 he)).1.le
  · exact fun e he => h.edit_at_left hs hm hes hp (List.mem_mergeSort.1 he)
  · exact fun e he => h.edit_at_right hs hm hes hq (List.mem_mergeSort.1 he)

theorem within_of_covers (hp : p.endsExpression) (hq : q.continuesExpression) {span : Span}
    (hspan : span ∈ m.consumed)
    {offset : Nat} (hcovers : span.Covers offset) (hbetween : (Span.mk p.stop q.start).Covers offset) :
    span.Within ⟨p.stop, q.start⟩ := by
  obtain ⟨item, hitem, hspan⟩ := SourceModule.mem_consumed.1 hspan
  obtain ⟨e, he, rfl, _⟩ := exists_replacement hs hm hes hitem hspan
  obtain ⟨hle, hlt⟩ := hcovers
  obtain ⟨hpo, hoq⟩ := hbetween
  dsimp only at hpo hoq
  constructor
  · apply Nat.le_of_not_lt
    intro hbefore
    have := h.edit_at_left hs hm hes hp he hbefore
    omega
  · apply Nat.le_of_not_lt
    intro hafter
    have := h.edit_at_right hs hm hes hq he hafter
    omega

theorem separated_iff (hp : p.endsExpression) (hq : q.continuesExpression) {text : List Char}
    (htext : Becomes source (es.mergeSort Edit.le) (applyEdits source es) p.stop q.start text) :
    ';' ∈ text ↔ Separated source m p.stop q.start := by
  have hle := (Stream.wellFormed_of_scan hs).stop_le_start h.left h.right (Nat.lt_of_succ_lt h.lt)
  simp only [htext.mem_iff, List.mem_mergeSort]
  constructor
  · rintro (⟨e, he, hin, hsemicolon⟩ | ⟨before, after, hsource, hcovers, hout⟩)
    · rcases h.edit_cases hs hm hes hp he hin with ⟨item, hitem, hspan, hiff⟩ | ⟨_, ⟨st, hst, happends⟩, _⟩
      · exact .written hitem hspan hin (hiff.1 hsemicolon)
      · exact .appended hst happends
    · refine .kept hsource hcovers fun span hspan hunder => ?_
      obtain ⟨item, hitem, hspan'⟩ := SourceModule.mem_consumed.1 hspan
      obtain ⟨e, he, rfl, _⟩ := exists_replacement hs hm hes hitem hspan'
      exact hout e he (h.within_of_covers hs hm hes hp hq hspan hunder hcovers) hunder
  · rintro (⟨hitem, hspan, hin, hcode⟩ | ⟨hst, happends⟩ | ⟨hsource, hcovers, hout⟩)
    · obtain ⟨e, he, rfl, _, hsemicolon⟩ := exists_replacement hs hm hes hitem hspan
      exact .inl ⟨e, he, hin, hsemicolon hcode⟩
    · obtain ⟨e, he, hspan, hsemicolon⟩ := exists_appended hes hst happends
      refine .inl ⟨e, he, ?_, hsemicolon⟩
      rw [hspan]
      exact ⟨Nat.le_refl _, hle⟩
    · refine .inr ⟨_, _, hsource, hcovers, fun e he hin hunder => ?_⟩
      rcases h.edit_cases hs hm hes hp he hin with ⟨item, hitem, hspan, _⟩ | ⟨hpoint, _⟩
      · exact hout e.span (SourceModule.mem_consumed.2 ⟨item, hitem, hspan⟩) hunder
      · rw [hpoint] at hunder
        exact Nat.not_lt_of_le hunder.1 hunder.2

end

end Parted

theorem Lowers.edits_of_mem {source : List Char} {s : Stream} {m : SourceModule} {es : List Edit}
    (h : Lowers source s m es) {item : ModuleItem} (hitem : item ∈ m.items) :
    (Context.ofModule source s m true).edits m = .ok es := by
  rwa [Lowers, if_pos] at h
  cases hitems : m.items with
  | nil =>
    rw [hitems] at hitem
    cases hitem
  | cons => simp [SourceModule.hasModuleSyntax, hitems]

theorem Parted.exists_item {s : Stream} {m : SourceModule} {i j : Nat} {p q : Token} (h : Parted s m i j p q) :
    ∃ item, item ∈ m.items := by
  have hsize := h.lt.trans (lt_size_of_getElem? h.right)
  obtain ⟨span, hspan, _⟩ := h.between (i + 1) h.lt (Nat.lt_add_one i) _ (Array.getElem?_eq_getElem hsize)
  obtain ⟨item, hitem, _⟩ := SourceModule.mem_consumed.1 hspan
  exact ⟨item, hitem⟩

/-- A statement that is replaced leaves only line feeds behind exactly if it is an empty export list or repeats
the module of an earlier one. Where such statements part the end of an expression from a token that could continue
it, a semicolon stands between the two after lowering exactly if something else brings one. -/
theorem neighbours_separated_iff {source : List Char} {out : String} (h : lower source .lowering = .ok out) :
    ∃ s m es, scan source = .ok s ∧ s.toModule = .ok m ∧ Lowers source s m es ∧ out.toList = applyEdits source es ∧
      (∀ item ∈ m.items, ∀ span, Context.consumedSpan item = some span →
        ∃ e ∈ es, e.span = span ∧ (item.vanishes m.items ↔ ∀ c ∈ e.text.toList, c = '\n')) ∧
      ∀ i j p q, Parted s m i j p q → p.endsExpression → q.continuesExpression →
        ∃ text, Becomes source (es.mergeSort Edit.le) out.toList p.stop q.start text ∧
          (';' ∈ text ↔ Separated source m p.stop q.start) := by
  obtain ⟨s, m, es, hs, hm, hlowers, hout⟩ := lowers_of_lower h
  refine ⟨s, m, es, hs, hm, hlowers, hout, ?_, ?_⟩
  · intro item hitem span hspan
    obtain ⟨e, he, hspan, hfeeds, hsemicolon⟩ := exists_replacement hs hm (hlowers.edits_of_mem hitem) hitem hspan
    refine ⟨e, he, hspan, hfeeds, fun hall => ?_⟩
    by_contra hcode
    exact absurd (hall ';' (hsemicolon (Bool.not_eq_true _ ▸ hcode))) (by decide)
  · intro i j p q hparted hp hq
    obtain ⟨item, hitem⟩ := hparted.exists_item
    have hes := hlowers.edits_of_mem hitem
    rw [hout]
    obtain ⟨text, htext⟩ := hparted.becomes hs hm hes hp hq
    exact ⟨text, htext, hparted.separated_iff hs hm hes hp hq htext⟩

theorem neighbours_separated_import : ∃ out es text,
    lower "let a = b\nimport 'm';\n(c)();\n".toList .lowering = .ok out ∧
      Becomes "let a = b\nimport 'm';\n(c)();\n".toList es out.toList 9 22 text ∧ ';' ∈ text := by
  obtain ⟨s, m, es, hs, hm, _, hlower, htest⟩ := exists_of_acceptsLowering "let a = b\nimport 'm';\n(c)();\n".toList
    (fun s m => s.tokens[3]?.any fun p => s.tokens[7]?.any fun q =>
      decide ((Parted s m 3 7 p q ∧ p.endsExpression ∧ q.continuesExpression) ∧ (p.stop = 9 ∧ q.start = 22) ∧
        ∃ item ∈ m.items, item.vanishes m.items = false ∧ ∃ span ∈ Context.consumedSpan item, span.Within ⟨9, 22⟩))
    (by decide +kernel)
  obtain ⟨p, _, htest⟩ := (Option.any_eq_true _ _).1 htest
  obtain ⟨q, _, htest⟩ := (Option.any_eq_true _ _).1 htest
  obtain ⟨⟨hparted, hp, hq⟩, ⟨hstop, hstart⟩, item, hitem, hcode, span, hspan, hin⟩ := of_decide_eq_true htest
  obtain ⟨s', m', es', hs', hm', _, _, _, hseparated⟩ := neighbours_separated_iff hlower
  obtain rfl := Except.ok.inj (hs.symm.trans hs')
  obtain rfl := Except.ok.inj (hm.symm.trans hm')
  obtain ⟨text, htext, hiff⟩ := hseparated 3 7 p q hparted hp hq
  rw [hstop, hstart] at htext hiff
  exact ⟨_, _, text, hlower, htext, hiff.2 (.written hitem hspan hin hcode)⟩

/-- An empty export list leaves nothing behind, and the two lines become one expression. -/
theorem neighbours_joined :
    let source := "let a = b\nexport \x7b\x7d\n(c)()\n".toList
    ∃ s m out es p q text, scan source = .ok s ∧ s.toModule = .ok m ∧ lower source .lowering = .ok out ∧
      (∃ item ∈ m.items, item.vanishes m.items) ∧ Parted s m 3 7 p q ∧ p.endsExpression ∧ q.continuesExpression ∧
      Becomes source es out.toList p.stop q.start text ∧ ';' ∉ text := by
  intro source
  obtain ⟨s, m, es, hs, hm, hlowers, hlower, htest⟩ := exists_of_acceptsLowering source
    (fun s m => s.tokens[3]?.any fun p => s.tokens[7]?.any fun q =>
      decide ((Parted s m 3 7 p q ∧ p.endsExpression ∧ q.continuesExpression) ∧
        m.items = [.exports (.names ⟨10, 19⟩ [])])) (by decide +kernel)
  obtain ⟨p, _, htest⟩ := (Option.any_eq_true _ _).1 htest
  obtain ⟨q, _, htest⟩ := (Option.any_eq_true _ _).1 htest
  obtain ⟨⟨hparted, hp, hq⟩, hitems⟩ := of_decide_eq_true htest
  have hitem : .exports (.names ⟨10, 19⟩ []) ∈ m.items := hitems ▸ List.mem_singleton.2 rfl
  have hes := hlowers.edits_of_mem hitem
  obtain ⟨text, htext⟩ := hparted.becomes hs hm hes hp hq
  refine ⟨s, m, _, es.mergeSort Edit.le, p, q, text, hs, hm, hlower, ⟨_, hitem, rfl⟩, hparted, hp, hq, ?_, ?_⟩
  · rwa [String.toList_ofList]
  rw [hparted.separated_iff hs hm hes hp hq htext]
  rintro (⟨hitem, _, _, hcode⟩ | ⟨hst, happends⟩ | ⟨hsource, _, _⟩)
  · rw [hitems] at hitem
    rw [List.mem_singleton.1 hitem] at hcode
    cases hcode
  · rw [hitems] at hst
    cases List.mem_singleton.1 hst
    cases happends
  · have hnone : ';' ∉ source := by decide +kernel
    rw [hsource] at hnone
    simp at hnone

end ModuleLowering
