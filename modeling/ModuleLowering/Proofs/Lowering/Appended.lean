import ModuleLowering.Proofs.Lowering.Neighbours
import ModuleLowering.Proofs.Statement.Declarators

namespace ModuleLowering

open Text

namespace Stream

structure VariablesEnd (s : Stream) (r : Reading) (declarators : List Declarator) (n : Nat) (t : Token) : Prop where
  item : r.item = .exports (.variableList (s.exportKeyword r.first) declarators t.stop)
  next : r.next = n + 1
  lt : r.first + 1 < n
  token : s.tokens[n]? = some t
  read : ∃ j ≤ n + 1, s.declarators (r.first + 2) = .ok (declarators, j)
  last : t.kind = .semicolon ∨ s.EndsDeclarators n t

theorem stopBefore_succ {s : Stream} {n : Nat} {t : Token} (ht : s.tokens[n]? = some t) :
    s.stopBefore (n + 1) = t.stop := by
  rw [stopBefore, before?_succ, ht]
  rfl

theorem WellFormed.eq_of_spanOf {s : Stream} {source : List Char} (h : s.WellFormed source) {a b n : Nat} {t : Token}
    (ht : s.tokens[n]? = some t) (hab : a ≤ b) (hpos : 0 < b) (hb : b ≤ s.tokens.size)
    (hspan : s.spanOf a b = .point t.stop) : a = n + 1 ∧ b = n + 1 := by
  rcases Nat.eq_or_lt_of_le hab with rfl | hlt
  · obtain ⟨k, rfl⟩ : ∃ k, a = k + 1 := ⟨a - 1, by omega⟩
    have hstop : s.stopBefore (k + 1) = s.stopBefore (n + 1) := by
      rw [stopBefore_succ ht]
      rw [spanOf_self] at hspan
      exact congrArg Span.stop hspan
    have hn := lt_size_of_getElem? ht
    have hkn := h.le_of_stopBefore_le (show k < s.tokens.size by omega) (Nat.le_of_eq hstop)
    have hnk := h.le_of_stopBefore_le hn (Nat.le_of_eq hstop.symm)
    omega
  · rw [s.spanOf_of_lt hlt] at hspan
    have hstart : s.offsetAt a = t.stop := congrArg Span.start hspan
    have hstop : s.stopBefore b = t.stop := congrArg Span.stop hspan
    have := h.offsetAt_lt_stopBefore hlt hb
    omega

theorem Readings.exists_variablesEnd {s : Stream} {source : List Char} {stop offset : Nat} {items : List ModuleItem}
    {rs : List Reading} (h : s.Readings stop items rs) (hs : s.WellFormed source) {keyword : Span}
    {declarators : List Declarator} (hst : .exports (.variableList keyword declarators offset) ∈ items) :
    ∃ r ∈ rs, ∃ n t, s.VariablesEnd r declarators n t ∧ t.stop = offset := by
  obtain ⟨⟨first, next, item⟩, hr, hitem, _, hform⟩ := h.exportForm hst
  dsimp only at hitem hform
  cases hform with
  | @variableList kind _ j hi hkind hd =>
    have hlt := lt_of_declarators hd
    have hend {n : Nat} {t : Token} (hn : s.finish j = n + 1) (ht : s.tokens[n]? = some t)
        (hlast : t.kind = .semicolon ∨ s.EndsDeclarators n t) :
        ∃ r ∈ rs, ∃ n t, s.VariablesEnd r declarators n t ∧ t.stop = s.stopBefore (s.finish j) := by
      have hle := s.le_finish j
      have hstop : s.stopBefore (s.finish j) = t.stop := by rw [hn, stopBefore_succ ht]
      exact ⟨_, hr, n, t, ⟨hstop ▸ hitem, hn, by dsimp only; omega, ht, ⟨j, hn ▸ hle, hd⟩, hlast⟩, hstop.symm⟩
    obtain ⟨k, t, rfl, ht, hends⟩ :=
      hs.endsDeclarators (beginsTarget_succ hi (Kind.precedesTarget_of_declaresVariables hkind)) hd
    by_cases hsemicolon : s.isAt (k + 1) .semicolon
    · obtain ⟨u, hu, hk⟩ := isAt_iff.1 hsemicolon
      exact hend (by rw [finish, optional, if_pos hsemicolon]) hu (.inl hk)
    · exact hend (by rw [finish, optional, if_neg hsemicolon]) ht (.inr hends)

variable {x : Context} {m : SourceModule} {stop : Nat} {rs : List Reading} {items references es : List Edit}

theorem Readings.exists_part (h : x.stream.Readings stop m.items rs)
    (hitems : (x.itemEdits m.items).toExcept = .ok items) {e : Edit} (he : e ∈ items) :
    ∃ r ∈ rs, ∃ changes c, x.itemChanges r.item = .ok changes ∧ c ∈ changes ∧ c.edit = e ∧
      ∃ a b, e.span = x.stream.spanOf a b ∧ a ≤ b ∧ b ≤ r.next ∧ x.stream.Part r a b := by
  obtain ⟨zs, hzs, he⟩ := Progress.exists_of_mem_collect hitems he
  obtain ⟨item, hitem, hzs⟩ := List.mem_map.1 hzs
  obtain ⟨changes, hchanges, rfl⟩ := map_eq_ok_iff.1 hzs
  obtain ⟨c, hc, rfl⟩ := List.mem_map.1 he
  rw [h.items_eq] at hitem
  obtain ⟨r, hr, rfl⟩ := List.mem_map.1 hitem
  obtain ⟨a, b, hspan, _, hab, hb, hpart⟩ :=
    ((h.reads r hr).chain (h.lt r hr) hchanges).exists_of_mem (List.mem_map_of_mem hc)
  exact ⟨r, hr, changes, c, hchanges, hc, rfl, a, b, hspan, hab, hb, hpart⟩

def Leaves (s : Stream) (n : Nat) (t : Token) (word : List Char) : Prop :=
  word = t.text.toList ∨
    (t.kind = .identifier ∧ ∃ access, word = ((s.referenceForm n t).render t.text access).toList)

namespace VariablesEnd

variable {r : Reading} {declarators : List Declarator} {n : Nat} {t : Token}

section

variable {s : Stream} {items : List ModuleItem} (h : s.VariablesEnd r declarators n t)
  (hrs : s.Readings stop items rs) (hr : r ∈ rs) {r' : Reading} (hr' : r' ∈ rs)
include h hrs hr hr'

theorem eq_of_shared (hfirst : r'.first ≤ n) (hnext : n < r'.next) : r' = r := by
  have hlt := h.lt
  have hn := h.next
  exact hrs.eq_of_shared hr' hr ⟨hfirst, hnext⟩ ⟨by omega, by omega⟩

theorem not_part {a b : Nat} (hpart : s.Part r' a b) (ha : a ≤ n) (hb : n < b) (hnext : b ≤ r'.next) : False := by
  have hlt := h.lt
  cases hpart with
  | statement hspan =>
    obtain rfl := h.eq_of_shared hrs hr hr' ha hb
    rw [h.item] at hspan
    cases hspan
  | keyword | keywords =>
    obtain rfl := h.eq_of_shared hrs hr hr' ha (by omega)
    omega
  | point => omega

end

theorem change_at {s : Stream} {source : List Char} (h : s.VariablesEnd r declarators n t) (hs : s.WellFormed source)
    {c : Change} (hc : c ∈ Context.variableChanges (s.exportKeyword r.first) declarators t.stop)
    (hspan : c.span = .point t.stop) :
    c = .insert t.stop ((declarators.flatMap Context.laterNames).map Context.assignName) := by
  have hlt := h.lt
  have hsize := lt_size_of_getElem? h.token
  unfold Context.variableChanges at hc
  dsimp only at hc
  rcases List.mem_append.1 hc with hc | hc
  · rcases List.mem_cons.1 hc with rfl | hc
    · have hkeyword : s.exportKeyword r.first = s.spanOf r.first (r.first + 1) :=
        (s.spanOf_of_lt (Nat.lt_add_one _)).symm
      have := hs.eq_of_spanOf h.token (Nat.le_succ _) (Nat.succ_pos _) (by omega) (hkeyword.symm.trans hspan)
      omega
    · obtain ⟨j, hj, hread⟩ := h.read
      obtain ⟨k, _, hkj, _, hequals⟩ := span_of_initializerChange hread hc
      have := hs.eq_of_spanOf h.token (Nat.le_refl _) (Nat.succ_pos k) (by omega) (hequals.symm.trans hspan)
      omega
  · split at hc
    · cases hc
    · exact List.mem_singleton.1 hc

section

variable (h : x.stream.VariablesEnd r declarators n t) (hrs : x.stream.Readings stop m.items rs) (hr : r ∈ rs)
  (hs : x.stream.WellFormed x.source)
include h hrs hr hs

theorem edit_before (hes : x.edits m = .ok es) {e : Edit} (he : e ∈ es) (hlt : e.span.start < t.stop) :
    e.span.stop ≤ t.start ∨ (e.span = t.span ∧ t.kind = .identifier ∧
      ∃ access, e.text = (x.stream.referenceForm n t).render t.text access) := by
  have ht := h.token
  obtain ⟨items, references, hitems, hreferences, rfl⟩ := Context.exists_of_edits hes
  rcases List.mem_append.1 he with he | he
  · rcases List.mem_append.1 he with he | he
    · left
      obtain ⟨r', hr', _, _, _, _, _, a, b, hspan, hab, hb, hpart⟩ := hrs.exists_part hitems he
      have hsize := ((hrs.reads r' hr').next_le_size hs)
      by_cases hbn : b ≤ n
      · have hle := hs.spanOf_sequential (i := a) hbn (Nat.le_succ n) (lt_size_of_getElem? ht)
        rwa [← hspan, ← span_eq_spanOf ht] at hle
      by_cases hna : a ≤ n
      · exact (h.not_part hrs hr hr' hpart hna (by omega) hb).elim
      · have hle := hs.spanOf_sequential (i := n) (show n + 1 ≤ a by omega) hab (by omega)
        rw [← hspan, ← span_eq_spanOf ht] at hle
        exact absurd hlt (Nat.not_lt_of_le hle)
    · obtain ⟨i, u, o, access, hrewritten, rfl⟩ := Context.rewritten_of_mem hreferences he
      have hu := hrewritten.token
      rcases Nat.lt_trichotomy i n with hin | rfl | hin
      · exact .inl (hs.stop_le_start hu ht hin)
      · obtain rfl : u = t := Option.some.inj (hu.symm.trans ht)
        exact .inr ⟨rfl, hrewritten.name, access, rfl⟩
      · exact absurd hlt (Nat.not_lt_of_le (hs.stop_le_start ht hu hin))
  · left
    rw [List.mem_singleton.1 he]
    exact hs.lead_le n t ht

theorem exists_leaves (hes : x.edits m = .ok es) {first : List Edit}
    (hfirst : ∀ e ∈ first, e ∈ es ∧ e.span.start < t.stop)
    (hseq : first.Pairwise fun e f => e.span.stop ≤ f.span.start) {lead before : List Char}
    (hlead : byteLength lead = t.start) (hbefore : Woven 0 (lead ++ t.text.toList) first before) :
    ∃ start word, before = start ++ word ∧ x.stream.Leaves n t word := by
  have hedit (e : Edit) (he : e ∈ first) := h.edit_before hrs hr hs hes (hfirst e he).1 (hfirst e he).2
  have hnonempty : t.text.toList ≠ [] := mt String.toList_eq_nil_iff.1 (hs.standsIn h.token).1
  have hspan : Span.mk (0 + byteLength lead) (0 + byteLength lead + byteLength t.text.toList) = t.span := by
    rw [Nat.zero_add, hlead, ← utf8ByteSize_eq_byteLength]
    rfl
  have hwhole (e : Edit) (he : e ∈ first) : e.span.stop ≤ 0 + byteLength lead ∨
      e.span = ⟨0 + byteLength lead, 0 + byteLength lead + byteLength t.text.toList⟩ := by
    rw [hspan, Nat.zero_add, hlead]
    exact (hedit e he).imp_right And.left
  obtain ⟨start, word, rfl, hword⟩ := hbefore.endsIn hnonempty hseq hwhole
  refine ⟨start, word, rfl, hword.imp_right fun ⟨e, he, heq, htext⟩ => ?_⟩
  rcases hedit e he with hle | ⟨_, hname, access, hrender⟩
  · -- An edit that ends before the token does not replace it.
    rw [heq, hspan] at hle
    exact absurd (hs.start_lt_stop h.token) (Nat.not_lt_of_le hle)
  · exact ⟨hname, access, by rw [htext, hrender]⟩

theorem edit_at (hes : x.edits m = .ok es) {e : Edit} (he : e ∈ es) (hspan : e.span = .point t.stop) :
    e.text = (Change.insert t.stop ((declarators.flatMap Context.laterNames).map Context.assignName)).edit.text := by
  have ht := h.token
  have hlt := hs.start_lt_stop ht
  obtain ⟨items, references, hitems, hreferences, rfl⟩ := Context.exists_of_edits hes
  rcases List.mem_append.1 he with he | he
  · rcases List.mem_append.1 he with he | he
    · obtain ⟨r', hr', changes, c, hchanges, hc, rfl, a, b, hab, hle, hb, hpart⟩ := hrs.exists_part hitems he
      have hfirst := hpart.bounds (hrs.lt r' hr')
      have hsize := (hrs.reads r' hr').next_le_size hs
      obtain ⟨_, rfl⟩ := hs.eq_of_spanOf ht hle (by omega) (by omega) (hab.symm.trans hspan)
      obtain rfl := h.eq_of_shared hrs hr hr' (by omega) hb
      rw [h.item] at hchanges
      cases hchanges
      rw [h.change_at hs hc hspan]
    · obtain ⟨i, u, o, access, hrewritten, rfl⟩ := Context.rewritten_of_mem hreferences he
      have := hs.start_lt_stop hrewritten.token
      have hstart := congrArg Span.start hspan
      have hstop := congrArg Span.stop hspan
      simp only [Token.span, Span.point] at hstart hstop
      omega
  · rw [List.mem_singleton.1 he] at hspan
    have hlead := hs.lead_le n t ht
    have hstart : prologueOffset x.source = t.stop := congrArg Span.start hspan
    omega

end

end VariablesEnd

def PlainNames (s : Stream) : Prop := ∀ t ∈ s.tokens, t.kind.hasRole → '\\' ∉ t.text.toList

instance (s : Stream) : Decidable s.PlainNames :=
  inferInstanceAs (Decidable (∀ t ∈ s.tokens, t.kind.hasRole → '\\' ∉ t.text.toList))

theorem endsBare_render {s : Stream} {i : Nat} {t : Token} (hrole : t.role ≠ some .jsxTag) (access : Access) :
    EndsBare ((s.referenceForm i t).render t.text access).toList := by
  have hparen (text : String) : EndsBare (text ++ ")").toList := by
    rw [String.toList_append]
    exact EndsBare.snoc (by decide) _
  unfold referenceForm
  rw [if_neg hrole]
  split
  · exact hparen _
  · split <;> exact hparen _

theorem VariablesEnd.ends {s : Stream} {source : List Char} {r : Reading} {declarators : List Declarator} {n : Nat}
    {t : Token} (h : s.VariablesEnd r declarators n t) (hs : scan source = .ok s) {word : List Char}
    (hword : s.Leaves n t word) :
    (t.kind = .semicolon → word = [';']) ∧ (t.kind ≠ .semicolon → s.PlainNames → EndsBare word) := by
  have hjsx : t.kind ≠ .jsxText ∧ (t.kind = .identifier → t.role ≠ some .jsxTag) := by
    rcases h.last with hk | hlast
    · exact ⟨by rw [hk]; nofun, by rw [hk]; nofun⟩
    · exact hlast.not_jsx hs h.token
  have hending := ending_of_scan hs h.token hjsx.1
  constructor
  · intro hk
    rcases hword with rfl | ⟨hname, _⟩
    · cases hending with
      | bare hnot => exact absurd hk hnot
      | semicolon _ htext => exact htext
      | escape hrole =>
        rw [hk] at hrole
        cases hrole
    · rw [hk] at hname
      cases hname
  · intro hk hplain
    rcases hword with rfl | ⟨hname, access, rfl⟩
    · cases hending with
      | bare _ _ hbare => exact hbare
      | semicolon hsemicolon => exact absurd hsemicolon hk
      | escape hrole hescape => exact absurd hescape (hplain t (Array.mem_of_getElem? h.token) hrole)
    · exact endsBare_render (hjsx.2 hname) access

end Stream

theorem Lowers.inserts_assignments {source : List Char} {s : Stream} {m : SourceModule} {es : List Edit}
    (hlowers : Lowers source s m es) (hs : scan source = .ok s) (hm : s.toModule = .ok m) {keyword : Span}
    {declarators : List Declarator} {offset : Nat}
    (hst : .exports (.variableList keyword declarators offset) ∈ m.items)
    (hlater : declarators.flatMap Context.laterNames ≠ []) :
    ∃ (n : Nat) (t : Token) (start word after : List Char), s.tokens[n]? = some t ∧ t.stop = offset ∧
      s.Leaves n t word ∧
      Inserts source (es.mergeSort Edit.le) (applyEdits source es) offset (start ++ word)
        (Change.insert offset ((declarators.flatMap Context.laterNames).map Context.assignName)).edit.text.toList
        after ∧
      (t.kind = .semicolon → word = [';']) ∧ (t.kind ≠ .semicolon → s.PlainNames → EndsBare word) := by
  have hes := hlowers.edits_of_mem hst
  have hformed := Stream.wellFormed_of_scan hs
  obtain ⟨stop, rs, hrs⟩ := Stream.readings_of_toModule hm
  obtain ⟨r, hr, n, t, hend, rfl⟩ := hrs.exists_variablesEnd hformed hst
  have happends : (ExportStatement.variableList keyword declarators t.stop).appendsAt? = some t.stop :=
    if_neg (by simpa using hlater)
  obtain ⟨e, he, hspan, _⟩ := exists_appended hes hst happends
  have hx : (Context.ofModule source s m true).stream.VariablesEnd r declarators n t := hend
  have hin := hrs.edits_in (x := Context.ofModule source s m true) hformed rfl hes
  have hseq := sequential_of_apart (fun e he => (hin e he).1)
    (hrs.edits_apart (x := Context.ofModule source s m true) hformed rfl hes)
  obtain ⟨lead, trail, hsource, hlead, hlength⟩ := hformed.exists_split hend.token
  have hstop : byteLength (lead ++ t.text.toList) = t.stop := by rw [byteLength_append, hlead, hlength]
  have hwoven := hlowers.woven hs hm
  nth_rewrite 1 [hsource] at hwoven
  obtain ⟨before, after, hinserts, first, hsub, hearlier, hbefore⟩ := hwoven.inserts hseq
    (List.mem_mergeSort.2 he) (hspan.trans (congrArg Span.point hstop.symm))
    fun f hf hpoint =>
      hx.edit_at hrs hr hformed hes (List.mem_mergeSort.1 hf) (hpoint.trans (congrArg Span.point hstop))
  rw [← hsource, hstop] at hinserts
  have hfirst (f : Edit) (hf : f ∈ first) : f ∈ es ∧ f.span.start < t.stop :=
    ⟨List.mem_mergeSort.1 (hsub.subset hf), hstop ▸ hearlier f hf⟩
  obtain ⟨start, word, rfl, hleaves⟩ :=
    hx.exists_leaves hrs hr hformed hes hfirst (hseq.sublist hsub) hlead hbefore
  exact ⟨n, t, start, word, after, hend.token, rfl, hleaves, hinserts, hend.ends hs hleaves⟩

/-- The assignments that are appended to an exported variable statement stand directly after what is left of its last
token. That ends in a semicolon if the token is one, and, if no name in the source is written with an escape, only
then: nothing parts the assignments from a statement that ends with its line or with the source. -/
theorem appended_after_semicolon_iff {source : List Char} {options : Options} (himports : options.imports)
    {out : String} (h : lower source options = .ok out) :
    ∃ s m es suffix, scan source = .ok s ∧ s.toModule = .ok m ∧ Lowers source s m es ∧
      out.toList = applyEdits source es ++ suffix ∧
      ∀ keyword declarators offset, .exports (.variableList keyword declarators offset) ∈ m.items →
        declarators.flatMap Context.laterNames ≠ [] →
        ∃ (n : Nat) (t : Token) (start word after : List Char), s.tokens[n]? = some t ∧ t.stop = offset ∧
          s.Leaves n t word ∧
          Inserts source (es.mergeSort Edit.le) (applyEdits source es) offset (start ++ word)
            (Change.insert offset ((declarators.flatMap Context.laterNames).map Context.assignName)).edit.text.toList
            after ∧
          (t.kind = .semicolon → word = [';']) ∧
          (s.PlainNames → ∃ c, word.getLast? = some c ∧ isBlank c = false ∧ isLineBreak c = false ∧
            (c = ';' ↔ t.kind = .semicolon)) := by
  obtain ⟨s, m, es, suffix, hs, hm, hlowers, hout, _⟩ := exists_lowers himports h
  refine ⟨s, m, es, suffix, hs, hm, hlowers, hout, fun keyword declarators offset hst hlater => ?_⟩
  obtain ⟨n, t, start, word, after, ht, hstop, hleaves, hinserts, hsemicolon, hbare⟩ :=
    hlowers.inserts_assignments hs hm hst hlater
  refine ⟨n, t, start, word, after, ht, hstop, hleaves, hinserts, hsemicolon, fun hplain => ?_⟩
  by_cases hk : t.kind = .semicolon
  · exact ⟨';', by rw [hsemicolon hk]; rfl, by decide, by decide, by simp [hk]⟩
  · obtain ⟨c, hc, hbare⟩ := hbare hk hplain
    simp only [isBare, Bool.and_eq_true, bne_iff_ne, Bool.not_eq_true'] at hbare
    exact ⟨c, hc, hbare.1.2, hbare.2, by simp [hk, hbare.1.1]⟩

theorem appended_after_semicolon :
    let source := "export let a;\nfoo();\n".toList
    ∃ es out suffix start after, lower source ⟨true, true⟩ = .ok out ∧ out.toList = applyEdits source es ++ suffix ∧
      Inserts source (es.mergeSort Edit.le) (applyEdits source es) 13 (start ++ [';']) " exports.a = a;".toList
        after := by
  intro source
  obtain ⟨s, m, es, hs, hm, hlowers, _, htest⟩ := exists_of_acceptsLowering source
    (fun s m => decide (m.items = [.exports (.variableList ⟨0, 6⟩ [⟨["a"], true, none⟩] 13)] ∧
      ∀ t ∈ s.tokens, t.stop = 13 → t.kind = .semicolon)) (by decide +kernel)
  obtain ⟨hitems, hlast⟩ := of_decide_eq_true htest
  have hst : .exports (.variableList ⟨0, 6⟩ [⟨["a"], true, none⟩] 13) ∈ m.items := hitems ▸ List.mem_singleton.2 rfl
  obtain ⟨out, hlower⟩ : ∃ out, lower source ⟨true, true⟩ = .ok out := by
    unfold lower
    rw [if_neg (by decide), hs]
    dsimp only
    rw [lowerStream_eq hm (hlowers.edits_of_mem hst) (by simp [SourceModule.hasModuleSyntax, hitems])]
    exact ⟨_, rfl⟩
  obtain ⟨s', m', es', suffix, hs', hm', _, hout, happended⟩ := appended_after_semicolon_iff rfl hlower
  obtain rfl := Except.ok.inj (hs.symm.trans hs')
  obtain rfl := Except.ok.inj (hm.symm.trans hm')
  obtain ⟨n, t, start, word, after, ht, hstop, _, hinserts, hsemicolon, _⟩ := happended _ _ _ hst (by decide)
  rw [hsemicolon (hlast t (Array.mem_of_getElem? ht) hstop)] at hinserts
  exact ⟨es', out, suffix, start, after, hlower, hout, hinserts⟩

/-- A statement that ends with its line is not parted from the assignment after it. -/
theorem appended_without_semicolon :
    let source := "export let a\nfoo();\n".toList
    ∃ s m es out n t start word after c, scan source = .ok s ∧ s.toModule = .ok m ∧ Lowers source s m es ∧
      lower source .lowering = .ok out ∧
      .exports (.variableList ⟨0, 6⟩ [⟨["a"], true, none⟩] 12) ∈ m.items ∧ s.tokens[n]? = some t ∧
      s.Leaves n t word ∧
      Inserts source (es.mergeSort Edit.le) out.toList 12 (start ++ word) " exports.a = a;".toList after ∧
      word.getLast? = some c ∧ isBlank c = false ∧ isLineBreak c = false ∧ c ≠ ';' := by
  intro source
  obtain ⟨s, m, es, hs, hm, hlowers, hlower, htest⟩ := exists_of_acceptsLowering source
    (fun s m => decide (m.items = [.exports (.variableList ⟨0, 6⟩ [⟨["a"], true, none⟩] 12)] ∧
      (∀ t ∈ s.tokens, t.stop = 12 → t.kind ≠ .semicolon) ∧ s.PlainNames)) (by decide +kernel)
  obtain ⟨hitems, hlast, hplain⟩ := of_decide_eq_true htest
  have hst : .exports (.variableList ⟨0, 6⟩ [⟨["a"], true, none⟩] 12) ∈ m.items := hitems ▸ List.mem_singleton.2 rfl
  obtain ⟨n, t, start, word, after, ht, hstop, hleaves, hinserts, _, hbare⟩ :=
    hlowers.inserts_assignments hs hm hst (by decide)
  obtain ⟨c, hc, hbare⟩ := hbare (hlast t (Array.mem_of_getElem? ht) hstop) hplain
  simp only [isBare, Bool.and_eq_true, bne_iff_ne, Bool.not_eq_true'] at hbare
  refine ⟨s, m, es, _, n, t, start, word, after, c, hs, hm, hlowers, hlower, hst, ht, hleaves, ?_, hc, hbare.1.2,
    hbare.2, hbare.1.1⟩
  rwa [String.toList_ofList]

end ModuleLowering
