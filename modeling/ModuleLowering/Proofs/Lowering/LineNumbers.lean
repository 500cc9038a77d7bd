import ModuleLowering.Proofs.Lowering.Edits
import ModuleLowering.Proofs.Lowering.OneLine
import ModuleLowering.Proofs.Role.Words
import ModuleLowering.Proofs.Text.Lines

/-!
Line numbers: every edit puts in as many line feeds as it takes out, but for the one that takes out the words
`export default`, whose line feeds are lost.
-/

namespace ModuleLowering

open Text

theorem OneLine.level {source : List Char} {e : Edit} (h : OneLine e.text) (hspan : '\n' ∉ e.span.text source) :
    e.Level source := (List.count_eq_zero.2 h).trans (List.count_eq_zero.2 hspan).symm

theorem OneLine.level_of_point {source : List Char} {e : Edit} {offset : Nat} (h : OneLine e.text)
    (hspan : e.span = .point offset) : e.Level source := by
  apply h.level
  rw [hspan, text_point]
  exact List.not_mem_nil

namespace Change

variable {source : List Char} {lines : List Line}

theorem level_insert (offset : Nat) (h : ∀ line ∈ lines, ∀ w ∈ line.words, OneLine w) :
    (Change.insert offset lines).edit.Level source :=
  OneLine.level_of_point (.append (by decide : OneLine " ") (oneLine_renderLines h)) rfl

theorem added_default (span : Span) :
    (Change.mk span "" [.initializer (.identifier "default")]).edit.added = 0 :=
  List.count_eq_zero.2 (by decide +kernel : OneLine ("" ++ renderLines [.initializer (.identifier "default")]))

theorem level_replace (span : Span) (h : ∀ line ∈ lines, ∀ w ∈ line.words, OneLine w) :
    (Change.replace source span lines).edit.Level source := by
  have hlines := List.count_eq_zero.2 (oneLine_renderLines h)
  change (lineFeeds (span.text source) ++ renderLines lines).toList.count '\n' = (span.text source).count '\n'
  rw [String.toList_append, List.count_append, hlines, count_lineFeeds, Nat.add_zero]

end Change

namespace Stream

variable {s : Stream} {source : List Char}

theorem WellFormed.exists_split (h : s.WellFormed source) {i : Nat} {t : Token} (ht : s.tokens[i]? = some t) :
    ∃ before after, source = before ++ t.text.toList ++ after ∧ byteLength before = t.start ∧
      t.start + byteLength t.text.toList = t.stop := by
  obtain ⟨before, after, hsource, hbefore, hstop⟩ := (h.standsIn ht).stop_eq
  rw [byteLength_append, hbefore] at hstop
  exact ⟨before, after, hsource, hbefore, hstop⟩

theorem WellFormed.text_span (h : s.WellFormed source) {i : Nat} {t : Token} (ht : s.tokens[i]? = some t) :
    t.span.text source = t.text.toList := by
  obtain ⟨before, after, hsource, hbefore, hstop⟩ := h.exists_split ht
  exact text_of_split hsource hbefore hstop

theorem text_exportKeyword (hs : scan source = .ok s) {i : Nat} (hi : s.isAt i (.keyword .«export»)) :
    (s.exportKeyword i).text source = "export".toList := by
  obtain ⟨t, ht, htext⟩ := text_of_keyword hs hi
  have hspan := (span_eq_spanOf ht).trans (s.spanOf_of_lt (Nat.lt_add_one i))
  rw [exportKeyword, ← hspan, (wellFormed_of_scan hs).text_span ht, htext]
  rfl

end Stream

namespace ExportStatement

def defaultKeywords? : ExportStatement → Option Span
  | defaultExpression keywords | defaultNamed keywords _ _ | defaultAnonymous keywords _ => some keywords
  | _ => none

end ExportStatement

def SourceModule.DefaultsOnOneLine (m : SourceModule) (source : List Char) : Prop :=
  ∀ st, .exports st ∈ m.items → ∀ keywords, st.defaultKeywords? = some keywords → '\n' ∉ keywords.text source

namespace Context

structure OneLineNames (x : Context) : Prop where
  requirements : x.requirements.OneLineNames
  origins : ∀ name o, x.bindings.origin? name = some o →
    OneLine name ∧ ∀ n, o.imported = .named n → OneLine n.written

theorem oneLineNames_ofModule {source : List Char} {s : Stream} {m : SourceModule} (hm : s.toModule = .ok m)
    (h : OneLineWords m.items) : (ofModule source s m true).OneLineNames where
  requirements := Requirements.oneLineNames_allocate h (.ofStream s)
  origins := fun _ _ ho => oneLine_of_mem_importedNames h ((Stream.binds_of_toModule hm).mem_of_origin? ho)

namespace OneLineNames

variable {x : Context} (h : x.OneLineNames)
include h

theorem render {name : String} {o : Origin} {access : Access} (ho : x.bindings.origin? name = some o)
    (haccess : x.requirements.access o = some access) : OneLine access.render :=
  Access.oneLine_render (h.requirements.access (h.origins name o ho).2 haccess)

theorem value {name : String} (hname : OneLine name) : OneLine (x.bindings.value x.requirements name) := by
  unfold Bindings.value
  cases hfound : (x.bindings.origin? name).bind x.requirements.access with
  | none => exact hname
  | some access =>
    obtain ⟨o, ho, haccess⟩ := Option.bind_eq_some_iff.1 hfound
    exact h.render ho haccess

theorem getterLine {specifier : String} {offset : Nat} {e : ExportSpecifier} {line : Line}
    (hsource : OneLine e.source.written) (hexported : OneLine e.exported.written)
    (hline : x.getterLine specifier offset e = .ok line) : ∀ w ∈ line.words, OneLine w := by
  unfold Context.getterLine at hline
  split at hline
  · rename_i access haccess
    cases hline
    simpa [Line.words] using ⟨hexported, h.requirements.reexportAccess hsource haccess⟩
  · cases hline

end OneLineNames

theorem oneLine_assignName {name : String} (h : OneLine name) :
    ∀ line ∈ [assignName name], ∀ w ∈ line.words, OneLine w := by
  simpa [assignName, Line.words, ModuleName.written] using h

theorem names_of_initializerChange? {d : Declarator} {c : Change} (h : initializerChange? d = some c) :
    ∃ stop name, name ∈ d.names ∧ c = .insert stop [.initializer (.identifier name)] := by
  unfold initializerChange? at h
  split at h
  · rename_i hnames
    cases h
    exact ⟨_, _, hnames ▸ List.mem_cons_self, rfl⟩
  · cases h

theorem level_variableChanges {source : List Char} {keyword : Span} {declarators : List Declarator} {stop : Nat}
    (hkeyword : '\n' ∉ keyword.text source) (hnames : ∀ name ∈ declarators.flatMap (·.names), OneLine name)
    {c : Change} (hc : c ∈ variableChanges keyword declarators stop) : c.edit.Level source := by
  have hname {d : Declarator} (hd : d ∈ declarators) {name : String} (hname : name ∈ d.names) : OneLine name :=
    hnames name (List.mem_flatMap.2 ⟨d, hd, hname⟩)
  unfold variableChanges at hc
  rcases List.mem_append.1 hc with hc | hc
  · rcases List.mem_cons.1 hc with rfl | hc
    · exact OneLine.level (by decide +kernel : OneLine "") hkeyword
    · obtain ⟨d, hd, hchange⟩ := List.mem_filterMap.1 hc
      obtain ⟨offset, name, hmem, rfl⟩ := names_of_initializerChange? hchange
      refine Change.level_insert offset ?_
      simpa [Line.words, ModuleName.written] using hname hd hmem
  · split at hc
    · cases hc
    · rw [List.mem_singleton.1 hc]
      refine Change.level_insert stop fun line hline => ?_
      obtain ⟨name, hlater, rfl⟩ := List.mem_map.1 hline
      obtain ⟨d, hd, hlater⟩ := List.mem_flatMap.1 hlater
      have hmem : name ∈ d.names := by
        unfold laterNames at hlater
        split at hlater
        · cases hlater
        · exact hlater
      exact oneLine_assignName (hname hd hmem) _ (List.mem_singleton.2 rfl)

end Context

theorem Context.exists_default_change {x : Context} {st : ExportStatement} {keywords : Span} {changes : List Change}
    (hst : st.defaultKeywords? = some keywords) (h : x.exportChanges st = .ok changes) :
    ∃ c ∈ changes, c.span = keywords ∧ c.edit.added = 0 := by
  cases st <;> cases hst <;> cases h <;> refine ⟨_, List.mem_cons_self, rfl, ?_⟩
  · exact Change.added_default keywords
  · rfl
  · exact Change.added_default keywords

section

variable {x : Context} (hx : x.OneLineNames)
include hx

theorem Context.level_importChange {st : ImportStatement} : (x.importChange st).edit.Level x.source :=
  Change.level_replace st.span hx.requirements.linesAt

theorem Stream.ExportForm.level {s : Stream} {i j : Nat} {st : ExportStatement} (h : s.ExportForm i st j)
    (hs : scan x.source = .ok s) (hi : s.isAt i (.keyword .«export»)) (hwords : ∀ w ∈ st.words, OneLine w)
    {changes : List Change} (hchanges : x.exportChanges st = .ok changes) {c : Change} (hc : c ∈ changes) :
    c.edit.Level x.source ∨ (st.defaultKeywords? = some c.span ∧ c.edit.added = 0) := by
  -- One word is on one line, but the two words `export default` need not be.
  have hkeyword : '\n' ∉ (s.exportKeyword i).text x.source := by
    rw [s.text_exportKeyword hs hi]
    decide +kernel
  cases h with
  | defaultExpression =>
    cases hchanges
    rw [List.mem_singleton.1 hc]
    exact .inr ⟨rfl, Change.added_default _⟩
  | defaultNamed =>
    cases hchanges
    rcases List.mem_cons.1 hc with rfl | hc
    · exact .inr ⟨rfl, rfl⟩
    · rw [List.mem_singleton.1 hc]
      refine .inl (Change.level_insert _ ?_)
      simpa [Line.words, ModuleName.written] using
        And.intro (by decide +kernel : OneLine "default") (hwords _ (List.mem_singleton.2 rfl))
  | defaultAnonymous =>
    cases hchanges
    rcases List.mem_cons.1 hc with rfl | hc
    · exact .inr ⟨rfl, Change.added_default _⟩
    · rw [List.mem_singleton.1 hc]
      exact .inl (OneLine.level_of_point (by decide +kernel : OneLine ";") rfl)
  | variableList =>
    cases hchanges
    exact .inl (Context.level_variableChanges hkeyword hwords hc)
  | declaration =>
    cases hchanges
    rcases List.mem_cons.1 hc with rfl | hc
    · exact .inl (OneLine.level (by decide +kernel : OneLine "") hkeyword)
    · rw [List.mem_singleton.1 hc]
      exact .inl (Change.level_insert _ (Context.oneLine_assignName (hwords _ (List.mem_singleton.2 rfl))))
  | @names specifiers =>
    cases hchanges
    rw [List.mem_singleton.1 hc]
    refine .inl (Change.level_replace _ fun line hline => ?_)
    obtain ⟨e, he, rfl⟩ := List.mem_map.1 hline
    have hname (w : String) (hw : w ∈ [e.source.value, e.exported.written]) : OneLine w :=
      hwords w (List.mem_flatMap.2 ⟨e, he, hw⟩)
    simpa [Line.words] using And.intro (hname e.exported.written (by simp)) (hx.value (hname e.source.value (by simp)))
  | @namesFrom specifiers _ _ specifier =>
    obtain ⟨getters, hgetters, hchanges⟩ := bind_eq_ok_iff.1 hchanges
    cases hchanges
    rw [List.mem_singleton.1 hc]
    refine .inl (Change.level_replace _ fun line hline => ?_)
    rcases List.mem_append.1 hline with hline | hline
    · exact hx.requirements.linesAt line hline
    · obtain ⟨e, he, hline⟩ := exists_of_mem_mapM hgetters hline
      have hname (w : String) (hw : w ∈ [e.source.written, e.exported.written]) : OneLine w :=
        hwords w (List.mem_cons_of_mem _ (List.mem_flatMap.2 ⟨e, he, hw⟩))
      exact hx.getterLine (hname e.source.written (by simp)) (hname e.exported.written (by simp)) hline

end

namespace Stream

theorem Readings.exportForm {s : Stream} {stop : Nat} {items : List ModuleItem} {rs : List Reading}
    (h : s.Readings stop items rs) {st : ExportStatement} (hst : .exports st ∈ items) :
    ∃ r ∈ rs, r.item = .exports st ∧ s.isAt r.first (.keyword .«export») ∧ s.ExportForm r.first st r.next := by
  rw [h.items_eq] at hst
  obtain ⟨r, hr, hitem⟩ := List.mem_map.1 hst
  refine ⟨r, hr, hitem, ?_⟩
  cases h.reads r hr with
  | imports => cases hitem
  | exports ht _ hk hi =>
    cases hitem
    exact ⟨isAt_iff.2 ⟨_, ht, hk⟩, hi⟩

end Stream

namespace Context

variable {x : Context} {m : SourceModule} {es : List Edit}

theorem level_itemEdits {stop : Nat} {rs : List Stream.Reading} (hx : x.OneLineNames)
    (hs : scan x.source = .ok x.stream) (hreads : x.stream.Readings stop m.items rs) (hwords : OneLineWords m.items)
    (h : (x.itemEdits m.items).toExcept = .ok es) {e : Edit} (he : e ∈ es) :
    e.Level x.source ∨
      (e.added = 0 ∧ ∃ st, .exports st ∈ m.items ∧ st.defaultKeywords? = some e.span) := by
  obtain ⟨fs, hfs, he⟩ := Progress.exists_of_mem_collect h he
  obtain ⟨item, hitem, hfs⟩ := List.mem_map.1 hfs
  obtain ⟨changes, hchanges, rfl⟩ := map_eq_ok_iff.1 hfs
  obtain ⟨c, hc, rfl⟩ := List.mem_map.1 he
  cases item with
  | imports =>
    cases hchanges
    rw [List.mem_singleton.1 hc]
    exact .inl (level_importChange hx)
  | exports st =>
    obtain ⟨_, _, _, hi, hform⟩ := hreads.exportForm hitem
    rcases hform.level hx hs hi (hwords _ hitem) hchanges hc with hlevel | ⟨hkeywords, hadded⟩
    · exact .inl hlevel
    · exact .inr ⟨hadded, st, hitem, hkeywords⟩

theorem exists_default_edit (h : (x.itemEdits m.items).toExcept = .ok es) {st : ExportStatement} {keywords : Span}
    (hst : .exports st ∈ m.items) (hkeywords : st.defaultKeywords? = some keywords) :
    ∃ e ∈ es, e.span = keywords ∧ e.added = 0 := by
  obtain ⟨fs, hfs, hmem⟩ := Progress.exists_of_collect h (List.mem_map_of_mem hst)
  obtain ⟨changes, hchanges, rfl⟩ := map_eq_ok_iff.1 hfs
  obtain ⟨c, hc, hspan, hadded⟩ := exists_default_change hkeywords hchanges
  exact ⟨c.edit, hmem _ (List.mem_map_of_mem hc), hspan, hadded⟩

theorem level_referencesEdits {spans : List Span} (hx : x.OneLineNames) (hs : scan x.source = .ok x.stream)
    (h : (x.referencesEdits spans).toExcept = .ok es) {e : Edit} (he : e ∈ es) : e.Level x.source := by
  obtain ⟨i, t, o, access, hrewritten, rfl⟩ := rewritten_of_mem h he
  have hname := (hx.origins _ _ hrewritten.origin).1
  have haccess := hx.render hrewritten.origin hrewritten.access
  have htext := (x.stream.referenceForm i t).oneLine_render hname haccess
  have hspan : '\n' ∉ t.span.text x.source := by
    rwa [(Stream.wellFormed_of_scan hs).text_span hrewritten.token]
  exact OneLine.level (e := ⟨t.span, _⟩) htext hspan

theorem level_prologueEdit (hx : x.OneLineNames) :
    (prologueEdit x.source x.requirements.helpers m.hasExports).Level x.source := by
  refine OneLine.level_of_point (.append (oneLine_prologue fun hs h => hx.requirements.helpers h) ?_) rfl
  split <;> decide

theorem level_edits {stop : Nat} {rs : List Stream.Reading} (hx : x.OneLineNames)
    (hs : scan x.source = .ok x.stream) (hreads : x.stream.Readings stop m.items rs) (hwords : OneLineWords m.items)
    (h : x.edits m = .ok es) :
    (∀ e ∈ es, e.added ≤ e.removed x.source) ∧
      ((∀ e ∈ es, e.Level x.source) ↔ m.DefaultsOnOneLine x.source) := by
  obtain ⟨items, references, hitems, hreferences, rfl⟩ := exists_of_edits h
  -- No edit gains lines, and only those that take out `export default` can lose any.
  have hlevel : ∀ e ∈ items ++ references ++ [prologueEdit x.source x.requirements.helpers m.hasExports],
      e.Level x.source ∨
        (e.added = 0 ∧ ∃ st, .exports st ∈ m.items ∧ st.defaultKeywords? = some e.span) := by
    intro e he
    rcases List.mem_append.1 he with he | he
    · rcases List.mem_append.1 he with he | he
      · exact level_itemEdits hx hs hreads hwords hitems he
      · exact .inl (level_referencesEdits hx hs hreferences he)
    · rw [List.mem_singleton.1 he]
      exact .inl (level_prologueEdit hx)
  constructor
  · intro e he
    rcases hlevel e he with heq | ⟨hadded, _⟩
    · exact Nat.le_of_eq heq
    · rw [hadded]
      exact Nat.zero_le _
  constructor
  · intro hall st hst keywords hkeywords
    obtain ⟨e, he, rfl, hadded⟩ := exists_default_edit hitems hst hkeywords
    have hsame := hall e (List.mem_append_left _ (List.mem_append_left _ he))
    rw [Edit.Level, hadded] at hsame
    exact List.count_eq_zero.1 hsame.symm
  · intro hlines e he
    rcases hlevel e he with heq | ⟨hadded, st, hst, hkeywords⟩
    · exact heq
    · exact hadded.trans (List.count_eq_zero.2 (hlines st hst e.span hkeywords)).symm

end Context

namespace Stream

theorem WellFormed.within_spanOf {s : Stream} {source : List Char} (h : s.WellFormed source) {a b i j : Nat}
    (ha : a ≤ i) (hij : i < j) (hb : j ≤ b) (hsize : b ≤ s.tokens.size) : (s.spanOf i j).Within (s.spanOf a b) := by
  constructor
  · rw [s.spanOf_of_lt hij, s.spanOf_of_lt (by omega)]
    rcases Nat.eq_or_lt_of_le ha with rfl | hlt
    · exact Nat.le_refl _
    · exact Nat.le_of_lt (h.offsetAt_lt_offsetAt hlt (by omega))
  · exact h.stopBefore_le_stopBefore hb hsize

variable {x : Context} {m : SourceModule} {stop : Nat} {rs : List Reading} {es : List Edit}

theorem Readings.apart_token (h : x.stream.Readings stop m.items rs) (hs : x.stream.WellFormed x.source)
    (hx : x.bindings = m.bindings) (hes : x.edits m = .ok es) {i : Nat} {t : Token}
    (ht : x.stream.tokens[i]? = some t) {e : Edit} (he : e ∈ es) (hout : ¬ t.span.Within e.span) :
    e.span.stop ≤ t.start ∨ t.stop ≤ e.span.start := by
  obtain ⟨items, references, hitems, hreferences, rfl⟩ := Context.exists_of_edits hes
  have hsize := lt_size_of_getElem? ht
  rcases List.mem_append.1 he with he | he
  · obtain ⟨a, b, hspan, hab, _, hb, _⟩ := h.run_of_mem hs hx hitems hreferences he
    have htoken := span_eq_spanOf ht
    -- The edit covers the tokens from `a` up to `b`, so `i` is none of them.
    by_cases hbi : b ≤ i
    · left
      have := hs.spanOf_sequential (i := a) hbi (Nat.le_succ i) hsize
      rwa [← hspan, ← htoken] at this
    by_cases hia : i < a
    · right
      have := hs.spanOf_sequential (i := i) (show i + 1 ≤ a by omega) hab hb
      rwa [← hspan, ← htoken] at this
    · apply absurd _ hout
      rw [hspan, htoken]
      exact hs.within_spanOf (by omega) (Nat.lt_add_one i) (by omega) hb
  · rw [List.mem_singleton.1 he]
    exact .inl (hs.lead_le i t ht)

end Stream

def Lowers (source : List Char) (s : Stream) (m : SourceModule) (es : List Edit) : Prop :=
  if m.hasModuleSyntax then (Context.ofModule source s m true).edits m = .ok es else es = []

theorem exists_lowers {source : List Char} {options : Options} (himports : options.imports) {out : String}
    (h : lower source options = .ok out) :
    ∃ s m es suffix, scan source = .ok s ∧ s.toModule = .ok m ∧ Lowers source s m es ∧
      out.toList = applyEdits source es ++ suffix ∧ (options.addModuleExports = false → suffix = []) := by
  unfold lower at h
  rw [if_neg (by simp [himports])] at h
  split at h
  · cases h
  · rename_i s hs
    cases hlower : lowerStream source options s with
    | error d =>
      rw [hlower] at h
      cases h
    | ok out' =>
      rw [hlower] at h
      cases h
      obtain ⟨m, hm, hrest⟩ := bind_eq_ok_iff.1 hlower
      by_cases hlowers : m.hasModuleSyntax = true
      · rw [hlowers] at hrest
        obtain ⟨es, hes, hout⟩ := bind_eq_ok_iff.1 hrest
        cases hout
        refine ⟨s, m, es, (if options.addModuleExports then (suffixFor? m.entries).getD "" else "").toList, hs, hm,
          by rwa [Lowers, if_pos hlowers], ?_, fun hno => ?_⟩
        · rw [String.toList_append, String.toList_ofList]
        · rw [if_neg (by simp [hno]), String.toList_empty]
      · rw [Bool.not_eq_true] at hlowers
        rw [hlowers] at hrest
        cases hrest
        refine ⟨s, m, [], [], hs, hm, by simp [Lowers, hlowers], ?_, fun _ => rfl⟩
        rw [String.toList_ofList, applyEdits_nil, List.append_nil]

theorem lowers_of_lower {source : List Char} {out : String} (h : lower source .lowering = .ok out) :
    ∃ s m es, scan source = .ok s ∧ s.toModule = .ok m ∧ Lowers source s m es ∧
      out.toList = applyEdits source es := by
  obtain ⟨s, m, es, suffix, hs, hm, hlowers, hout, hsuffix⟩ := exists_lowers rfl h
  rw [hsuffix rfl, List.append_nil] at hout
  exact ⟨s, m, es, hs, hm, hlowers, hout⟩

namespace Lowers

variable {source : List Char} {s : Stream} {m : SourceModule} {es : List Edit}

theorem woven (h : Lowers source s m es) (hs : scan source = .ok s) (hm : s.toModule = .ok m) :
    Woven 0 source (es.mergeSort Edit.le) (applyEdits source es) := by
  unfold Lowers at h
  split at h
  · have hformed := Stream.wellFormed_of_scan hs
    obtain ⟨stop, rs, hrs⟩ := Stream.readings_of_toModule hm
    have hin := hrs.edits_in (x := Context.ofModule source s m true) hformed rfl h
    exact woven_applyEdits (fun e he => (hin e he).1) (hrs.edits_apart hformed rfl h)
  · subst h
    rw [applyEdits_nil, List.mergeSort_nil]
    exact .done

theorem level (h : Lowers source s m es) (hs : scan source = .ok s) (hm : s.toModule = .ok m)
    (hwords : OneLineWords m.items) :
    (∀ e ∈ es, e.added ≤ e.removed source) ∧ ((∀ e ∈ es, e.Level source) ↔ m.DefaultsOnOneLine source) := by
  unfold Lowers at h
  split at h
  · obtain ⟨stop, rs, hrs⟩ := Stream.readings_of_toModule hm
    exact Context.level_edits (Context.oneLineNames_ofModule hm hwords) hs hrs hwords h
  · rename_i hlowers
    subst h
    have hnone : m.items = [] := by simpa [SourceModule.hasModuleSyntax] using hlowers
    simp [SourceModule.DefaultsOnOneLine, hnone]

theorem count_eq_iff (h : Lowers source s m es) (hs : scan source = .ok s) (hm : s.toModule = .ok m)
    (hwords : OneLineWords m.items) :
    (applyEdits source es).count '\n' = source.count '\n' ↔ m.DefaultsOnOneLine source := by
  obtain ⟨hle, hlevel⟩ := h.level hs hm hwords
  rw [(h.woven hs hm).count_eq_iff fun e he => hle e (List.mem_mergeSort.1 he), ← hlevel]
  exact forall_congr' fun e => imp_congr_left List.mem_mergeSort

theorem apart_token (h : Lowers source s m es) (hs : scan source = .ok s) (hm : s.toModule = .ok m) {i : Nat}
    {t : Token} (ht : s.tokens[i]? = some t) {e : Edit} (he : e ∈ es) (hout : ¬ t.span.Within e.span) :
    e.span.stop ≤ t.start ∨ t.stop ≤ e.span.start := by
  unfold Lowers at h
  split at h
  · obtain ⟨stop, rs, hrs⟩ := Stream.readings_of_toModule hm
    exact hrs.apart_token (x := Context.ofModule source s m true) (Stream.wellFormed_of_scan hs) rfl h ht he hout
  · subst h
    cases he

end Lowers

/-- If lowering succeeds on a source whose names and literals stand on one line each, then it keeps the number of
line feeds exactly if no `export default` is broken over lines. Then it also keeps the line of every token that
no edit takes with it. -/
theorem lower_keeps_lines_iff {source : List Char} {out : String} (h : lower source .lowering = .ok out) :
    ∃ s m es, scan source = .ok s ∧ s.toModule = .ok m ∧ Lowers source s m es ∧
      out.toList = applyEdits source es ∧
      (OneLineWords m.items →
        (out.toList.count '\n' = source.count '\n' ↔ m.DefaultsOnOneLine source) ∧
        (m.DefaultsOnOneLine source → ∀ (i : Nat) (t : Token), s.tokens[i]? = some t →
          (∀ e ∈ es, ¬ t.span.Within e.span) →
          ∃ place, Stays source (es.mergeSort Edit.le) out.toList t.text.toList t.start place ∧
            (location out.toList place).line = (location source t.start).line)) := by
  obtain ⟨s, m, es, hs, hm, hes, hout⟩ := lowers_of_lower h
  refine ⟨s, m, es, hs, hm, hes, hout, fun hwords => ?_⟩
  rw [hout]
  refine ⟨hes.count_eq_iff hs hm hwords, fun hlines i t ht hfree => ?_⟩
  obtain ⟨before, after, hsource, hbefore, hstop⟩ := (Stream.wellFormed_of_scan hs).exists_split ht
  obtain ⟨place, hstays⟩ := (hes.woven hs hm).stays hsource fun e he => by
    rw [hbefore, hstop]
    have he := List.mem_mergeSort.1 he
    exact hes.apart_token hs hm ht he (hfree e he)
  rw [hbefore] at hstays
  -- The edits before the token are level, each by itself.
  have hlevel := (hes.level hs hm hwords).2.2 hlines
  exact ⟨place, hstays, hstays.line_eq fun e he => hlevel e (List.mem_mergeSort.1 he)⟩

theorem exists_of_acceptsLowering (source : List Char) (test : Stream → SourceModule → Bool)
    (h : acceptsModule source (fun s m => m.hasModuleSyntax &&
      (match (Context.ofModule source s m true).edits m with
        | .ok _ => test s m
        | .error _ => false)) = true) :
    ∃ s m es, scan source = .ok s ∧ s.toModule = .ok m ∧ Lowers source s m es ∧
      lower source .lowering = .ok (String.ofList (applyEdits source es)) ∧ test s m = true := by
  obtain ⟨s, m, hs, hm, h⟩ := exists_of_acceptsModule source _ h
  simp only [Bool.and_eq_true] at h
  obtain ⟨hlowers, h⟩ := h
  split at h
  · rename_i es hes
    refine ⟨s, m, es, hs, hm, by rwa [Lowers, if_pos hlowers], ?_, h⟩
    unfold lower
    rw [if_neg (by decide), hs]
    dsimp only
    rw [lowerStream_eq hm hes hlowers]
    simp [Options.lowering, Except.mapError]
  · cases h

theorem lower_keeps_lines_default : ∃ out,
    lower "import a from 'm';\nexport default a;\nb();\n".toList .lowering = .ok out ∧
      out.toList.count '\n' = 3 := by
  obtain ⟨s, m, es, hs, hm, _, hlower, h⟩ := exists_of_acceptsLowering
    "import a from 'm';\nexport default a;\nb();\n".toList
    (fun _ m => m.items = [.imports ⟨⟨0, 18⟩, ⟨"'m'", "m", ⟨14, 17⟩⟩, ⟨some "a", none, []⟩⟩,
      .exports (.defaultExpression ⟨19, 33⟩)]) (by decide +kernel)
  have hitems := of_decide_eq_true h
  obtain ⟨s', m', es', hs', hm', _, _, hkeeps⟩ := lower_keeps_lines_iff hlower
  rw [hs] at hs'
  cases hs'
  rw [hm] at hm'
  cases hm'
  have hwords : OneLineWords m.items := by
    rw [hitems]
    unfold OneLineWords
    decide +kernel
  refine ⟨_, hlower, ((hkeeps hwords).1.2 fun st hst keywords hkeywords => ?_).trans (by decide +kernel)⟩
  rw [hitems] at hst
  rcases List.mem_cons.1 hst with himport | hlast
  · cases himport
  · cases List.mem_singleton.1 hlast
    cases hkeywords
    decide +kernel

theorem lower_loses_line : ∃ out,
    lower "export\ndefault 1;\nfoo();\n".toList .lowering = .ok out ∧
      out.toList.count '\n' ≠ "export\ndefault 1;\nfoo();\n".toList.count '\n' := by
  obtain ⟨s, m, es, hs, hm, hes, hlower, h⟩ := exists_of_acceptsLowering "export\ndefault 1;\nfoo();\n".toList
    (fun _ m => m.items = [.exports (.defaultExpression ⟨0, 14⟩)]) (by decide +kernel)
  have hitems := of_decide_eq_true h
  have hwords : OneLineWords m.items := by
    rw [hitems]
    intro item hitem w hw
    rw [List.mem_singleton.1 hitem] at hw
    cases hw
  refine ⟨_, hlower, ?_⟩
  rw [String.toList_ofList, Ne, hes.count_eq_iff hs hm hwords]
  intro hlines
  have hmem : ModuleItem.exports (.defaultExpression ⟨0, 14⟩) ∈ m.items := by
    rw [hitems]
    exact List.mem_singleton.2 rfl
  exact hlines _ hmem ⟨0, 14⟩ rfl (by decide +kernel)

end ModuleLowering
