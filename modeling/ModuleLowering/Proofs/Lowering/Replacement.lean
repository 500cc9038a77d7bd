import ModuleLowering.Proofs.Lowering.LineNumbers
import ModuleLowering.Proofs.Lowering.Requires

namespace ModuleLowering

open Text

def Line.isStatement : Line → Bool
  | initializer _ => false
  | _ => true

theorem Line.semicolon_mem_render {line : Line} (h : line.isStatement) : ';' ∈ line.render.toList := by
  have hend (v : String) {w : String} (hw : ';' ∈ w.toList) : ';' ∈ (v ++ w).toList := by
    rw [String.toList_append]
    exact List.mem_append_right v.toList hw
  cases line with
  | require | declare | interop | assignment | getter => exact hend _ (by decide +kernel)
  | initializer => cases h
  | terminator => exact (by decide +kernel : ';' ∈ ";".toList)

theorem semicolon_mem_renderLines {lines : List Line} (h : ∀ line ∈ lines, line.isStatement) (hne : lines ≠ []) :
    ';' ∈ (renderLines lines).toList := by
  unfold renderLines
  cases lines with
  | nil => exact absurd rfl hne
  | cons line lines =>
    have hline := Line.semicolon_mem_render (h line List.mem_cons_self)
    cases lines with
    | nil => simpa using hline
    | cons next lines => simp [hline]

namespace Change

theorem semicolon_mem_edit {c : Change} (h : ∀ line ∈ c.lines, line.isStatement) (hne : c.lines ≠ []) :
    ';' ∈ c.edit.text.toList := by
  rw [edit, String.toList_append]
  exact List.mem_append_right _ (semicolon_mem_renderLines h hne)

theorem semicolon_replace_iff {source : List Char} {span : Span} {lines : List Line}
    (h : ∀ line ∈ lines, line.isStatement) :
    ';' ∈ (replace source span lines).edit.text.toList ↔ lines ≠ [] := by
  refine ⟨?_, semicolon_mem_edit (c := replace source span lines) h⟩
  rintro hmem rfl
  simp [replace, edit, renderLines, lineFeeds] at hmem

end Change

namespace Requirements

variable {items : List ModuleItem} {names : NameRegistry} {rs : Requirements} {r : Requirement}

theorem isStatement_linesOf {line : Line} (h : line ∈ rs.linesOf r) : line.isStatement := by
  cases writesFor_of_mem h <;> rfl

theorem linesOf_ne_nil : rs.linesOf r ≠ [] := by
  unfold linesOf
  split <;> exact List.cons_ne_nil _ _

theorem Named.first_eq_start_iff (h : Named items names rs)
    (hordered : (items.map ModuleItem.start).Pairwise (· < ·))
    (hr : r ∈ rs.records) {item : ModuleItem} (hitem : item ∈ itemsFor r.specifier items) :
    r.first = item.start ↔ (itemsFor r.specifier items).head? = some item := by
  obtain ⟨first, hhead, hstart, _⟩ := h.first r hr
  rw [hhead, hstart, Option.some.injEq]
  constructor
  · intro heq
    have hnodup : (items.map ModuleItem.start).Nodup := hordered.imp Nat.ne_of_lt
    exact List.inj_on_of_nodup_map hnodup (List.mem_of_mem_filter (List.mem_of_mem_head? hhead))
      (List.mem_of_mem_filter hitem) heq
  · rintro rfl
    rfl

theorem Named.linesAt_eq_nil_iff (h : Named items names rs)
    (hordered : (items.map ModuleItem.start).Pairwise (· < ·))
    {item : ModuleItem} {specifier : String} (hitem : item ∈ itemsFor specifier items) :
    (rs.linesAt specifier item.start).getD [] = [] ↔ (itemsFor specifier items).head? ≠ some item := by
  obtain ⟨r, hr, rfl⟩ := h.exists_of_itemsFor hitem
  rw [h.linesAt_eq hr, Ne, ← h.first_eq_start_iff hordered hr hitem]
  split <;> simp_all [linesOf_ne_nil]

theorem isStatement_linesAt {specifier : String} {offset : Nat} {line : Line}
    (h : line ∈ (rs.linesAt specifier offset).getD []) : line.isStatement := by
  obtain ⟨_, _, h⟩ := exists_of_linesAt h
  exact isStatement_linesOf h

end Requirements

def SourceModule.consumed (m : SourceModule) : List Span := m.items.filterMap Context.consumedSpan

theorem SourceModule.mem_consumed {m : SourceModule} {span : Span} :
    span ∈ m.consumed ↔ ∃ item ∈ m.items, Context.consumedSpan item = some span := List.mem_filterMap

/-- The statement is replaced as a whole, and no code takes its place. -/
def ModuleItem.vanishes (items : List ModuleItem) : ModuleItem → Bool
  | imports st => (itemsFor st.specifier.value items).head? != some (imports st)
  | exports (.names _ specifiers) => specifiers.isEmpty
  | exports (.namesFrom span specifiers specifier) =>
    specifiers.isEmpty &&
      (itemsFor specifier.value items).head? != some (exports (.namesFrom span specifiers specifier))
  | _ => false

theorem mem_itemsFor {items : List ModuleItem} {item : ModuleItem} (hitem : item ∈ items) {specifier : Specifier}
    (h : item.specifier? = some specifier) : item ∈ itemsFor specifier.value items :=
  List.mem_filter.2 ⟨hitem, by simp [ModuleItem.isFor, h]⟩

theorem mapM_eq_nil_iff {α β : Type} {f : α → Except Diagnostic β} {xs : List α} {ys : List β}
    (h : xs.mapM f = .ok ys) : ys = [] ↔ xs = [] := by
  cases xs with
  | nil =>
    cases h
    simp
  | cons x xs =>
    obtain ⟨_, _, _, _, rfl⟩ := cons_of_mapM h
    simp

namespace Context

variable {items : List ModuleItem} {names : NameRegistry} {x : Context}

theorem replacement_of_consumed (h : Requirements.Named items names x.requirements)
    (hordered : (items.map ModuleItem.start).Pairwise (· < ·)) {item : ModuleItem} (hitem : item ∈ items)
    {span : Span} (hspan : consumedSpan item = some span) {changes : List Change}
    (hx : x.itemChanges item = .ok changes) :
    ∃ lines, changes = [.replace x.source span lines] ∧ (∀ line ∈ lines, line.isStatement) ∧
      (lines = [] ↔ item.vanishes items) := by
  cases item with
  | imports st =>
    cases hspan
    cases hx
    refine ⟨_, rfl, fun line => Requirements.isStatement_linesAt, ?_⟩
    rw [ModuleItem.vanishes, bne_iff_ne]
    exact h.linesAt_eq_nil_iff hordered (mem_itemsFor hitem rfl)
  | exports st =>
    cases st with
    | names span specifiers =>
      cases hspan
      cases hx
      refine ⟨_, rfl, ?_, by simp [ModuleItem.vanishes]⟩
      intro line hline
      obtain ⟨_, _, rfl⟩ := List.mem_map.1 hline
      rfl
    | namesFrom span specifiers specifier =>
      cases hspan
      obtain ⟨getters, hgetters, hx⟩ := bind_eq_ok_iff.1 hx
      cases hx
      refine ⟨_, rfl, ?_, ?_⟩
      · intro line hline
        rcases List.mem_append.1 hline with hline | hline
        · exact Requirements.isStatement_linesAt hline
        · obtain ⟨e, _, hline⟩ := exists_of_mem_mapM hgetters hline
          unfold getterLine at hline
          split at hline <;> cases hline
          rfl
      · rw [List.append_eq_nil_iff, ModuleItem.vanishes, Bool.and_eq_true, bne_iff_ne, and_comm]
        exact and_congr ((mapM_eq_nil_iff hgetters).trans List.isEmpty_iff.symm)
          (h.linesAt_eq_nil_iff hordered (mem_itemsFor hitem rfl))
    | _ => cases hspan

end Context

def ExportStatement.appendsAt? : ExportStatement → Option Nat
  | defaultNamed _ _ bodyEnd | defaultAnonymous _ bodyEnd | declaration _ _ _ bodyEnd => some bodyEnd
  | variableList _ declarators stop => if (declarators.flatMap Context.laterNames).isEmpty then none else some stop
  | _ => none

theorem Context.semicolon_append {names : List String} {offset : Nat} (hne : ¬ names.isEmpty) :
    ';' ∈ (Change.insert offset (names.map assignName)).edit.text.toList := by
  refine Change.semicolon_mem_edit ?_ fun hnil => hne (List.isEmpty_iff.2 (List.map_eq_nil_iff.1 hnil))
  intro line hline
  obtain ⟨_, _, rfl⟩ := List.mem_map.1 hline
  rfl

theorem Context.exists_append {x : Context} {st : ExportStatement} {offset : Nat} {changes : List Change}
    (h : st.appendsAt? = some offset) (hx : x.exportChanges st = .ok changes) :
    ∃ c ∈ changes, c.span = .point offset ∧ ';' ∈ c.edit.text.toList := by
  cases st with
  | defaultExpression | names | namesFrom => cases h
  | defaultNamed | declaration =>
    cases h
    cases hx
    refine ⟨_, List.mem_cons_of_mem _ List.mem_cons_self, rfl, Change.semicolon_mem_edit ?_ (List.cons_ne_nil _ _)⟩
    simp [Change.insert, Line.isStatement, assignName]
  | defaultAnonymous =>
    cases h
    cases hx
    refine ⟨_, List.mem_cons_of_mem _ List.mem_cons_self, rfl, Change.semicolon_mem_edit ?_ (List.cons_ne_nil _ _)⟩
    simp [Line.isStatement]
  | variableList keyword declarators stop =>
    by_cases hnames : (declarators.flatMap laterNames).isEmpty
    · rw [ExportStatement.appendsAt?, if_pos hnames] at h
      cases h
    · rw [ExportStatement.appendsAt?, if_neg hnames] at h
      cases h
      cases hx
      refine ⟨.insert offset _, ?_, rfl, semicolon_append hnames⟩
      unfold variableChanges
      dsimp only
      rw [if_neg hnames]
      exact List.mem_append_right _ List.mem_cons_self

namespace Stream

variable {s : Stream}

inductive DeclarationChange (s : Stream) (i j : Nat) (st : ExportStatement) (c : Change) : Prop
  | keywords {n : Nat} (hn : i < n) (hj : n ≤ j) (hspan : c.span = s.spanOf i n)
  | initializer {k : Nat} (hi : i < k) (hj : k < j) (hk : s.isAt k .equals) (hspan : c.span = s.spanOf (k + 1) (k + 1))
  | append (hspan : c.span = s.spanOf j j) (hst : st.appendsAt? = some c.span.start)
      (htext : ';' ∈ c.edit.text.toList)

theorem declarationChange_variables {i j : Nat} {keyword : Span} {declarators : List Declarator} {c : Change}
    (hd : s.declarators (i + 2) = .ok (declarators, j)) (hkeyword : keyword = s.exportKeyword i)
    (hc : c ∈ Context.variableChanges keyword declarators (s.stopBefore (s.finish j))) :
    s.DeclarationChange i (s.finish j) (.variableList keyword declarators (s.stopBefore (s.finish j))) c := by
  have hlt := lt_of_declarators hd
  have hle := s.le_finish j
  unfold Context.variableChanges at hc
  dsimp only at hc
  rcases List.mem_append.1 hc with hc | hc
  · rcases List.mem_cons.1 hc with rfl | hc
    · exact .keywords (Nat.lt_add_one i) (by omega) (hkeyword.trans (s.spanOf_of_lt (Nat.lt_add_one i)).symm)
    · obtain ⟨k, hik, hkj, hk, hspan⟩ := span_of_initializerChange hd hc
      exact .initializer (by omega) (by omega) hk hspan
  · split at hc
    · cases hc
    · rename_i hnames
      rw [List.mem_singleton.1 hc]
      refine .append (s.spanOf_self _).symm ?_ (Context.semicolon_append hnames)
      rw [ExportStatement.appendsAt?, if_neg hnames]
      rfl

theorem declarationChange_pair {i j n : Nat} {st : ExportStatement} {first last c : Change} (hc : c ∈ [first, last])
    (hi : i < n) (hj : n ≤ j) (hfirst : first.span = s.spanOf i n) (hlast : last.span = .point (s.stopBefore j))
    (hst : st.appendsAt? = some (s.stopBefore j)) (htext : ';' ∈ last.edit.text.toList) :
    s.DeclarationChange i j st c := by
  rcases List.mem_cons.1 hc with rfl | hc
  · exact .keywords hi hj hfirst
  · rw [List.mem_singleton.1 hc]
    refine .append (hlast.trans (s.spanOf_self j).symm) ?_ htext
    rw [hlast]
    exact hst

theorem ExportForm.change_cases {i j : Nat} {st : ExportStatement} (h : s.ExportForm i st j) {x : Context}
    {changes : List Change} (hx : x.exportChanges st = .ok changes) {c : Change} (hc : c ∈ changes)
    (hnone : st.consumedSpan = none) : s.DeclarationChange i j st c := by
  have hkeywords : s.defaultKeywords i = s.spanOf i (i + 2) := (s.spanOf_of_lt (by omega)).symm
  cases h with
  | defaultExpression =>
    have := s.le_expressionEnd (i + 2)
    have := s.le_finish (s.expressionEnd (i + 2))
    cases hx
    rw [List.mem_singleton.1 hc]
    exact .keywords (Nat.lt_add_of_pos_right (by omega)) (by omega) hkeywords
  | defaultNamed _ hd =>
    have := hd.lt_next
    cases hx
    rw [hd.bodyEnd_eq] at hc ⊢
    exact declarationChange_pair hc (Nat.lt_add_of_pos_right (by omega)) (by omega) hkeywords rfl rfl
      (Change.semicolon_mem_edit (by simp [Change.insert, Line.isStatement]) (List.cons_ne_nil _ _))
  | defaultAnonymous _ hd =>
    have := hd.lt_next
    cases hx
    rw [hd.bodyEnd_eq] at hc ⊢
    exact declarationChange_pair hc (Nat.lt_add_of_pos_right (by omega)) (by omega) hkeywords rfl rfl
      (Change.semicolon_mem_edit (by simp [Line.isStatement]) (List.cons_ne_nil _ _))
  | variableList _ _ hd =>
    cases hx
    exact declarationChange_variables hd rfl hc
  | declaration hd =>
    have := hd.lt_next
    cases hx
    rw [hd.bodyEnd_eq] at hc ⊢
    refine declarationChange_pair hc (Nat.lt_add_one i) (by omega) (s.spanOf_of_lt (Nat.lt_add_one i)).symm rfl rfl
      (Change.semicolon_mem_edit ?_ (List.cons_ne_nil _ _))
    simp [Change.insert, Line.isStatement, Context.assignName]
  | names | namesFrom => cases hnone

end Stream

section

variable {source : List Char} {s : Stream} {m : SourceModule} {es : List Edit}

theorem exists_replacement (hs : scan source = .ok s) (hm : s.toModule = .ok m)
    (hes : (Context.ofModule source s m true).edits m = .ok es) {item : ModuleItem} (hitem : item ∈ m.items)
    {span : Span} (hspan : Context.consumedSpan item = some span) :
    ∃ e ∈ es, e.span = span ∧ (item.vanishes m.items → ∀ c ∈ e.text.toList, c = '\n') ∧
      (item.vanishes m.items = false → ';' ∈ e.text.toList) := by
  obtain ⟨stop, rs, hrs⟩ := Stream.readings_of_toModule hm
  obtain ⟨items, references, hitems, hreferences, rfl⟩ := Context.exists_of_edits hes
  obtain ⟨zs, hzs, hmem⟩ := Progress.exists_of_collect hitems (List.mem_map_of_mem hitem)
  obtain ⟨changes, hchanges, rfl⟩ := map_eq_ok_iff.1 hzs
  obtain ⟨lines, rfl, hlines, hnil⟩ := Context.replacement_of_consumed
    (Requirements.named_allocate m.items (.ofStream s)) (hrs.starts_ordered (Stream.wellFormed_of_scan hs)) hitem
    hspan hchanges
  refine ⟨_, List.mem_append_left _ (List.mem_append_left _ (hmem _ (List.mem_map_of_mem List.mem_cons_self))), rfl,
    fun hvanishes => ?_, fun hcode => ?_⟩
  · rw [hnil.2 hvanishes]
    simp [Change.edit, Change.replace, renderLines, lineFeeds]
  · rw [Change.semicolon_replace_iff hlines, Ne, hnil, hcode]
    exact Bool.false_ne_true

theorem exists_appended (hes : (Context.ofModule source s m true).edits m = .ok es) {st : ExportStatement}
    (hst : .exports st ∈ m.items) {offset : Nat} (happends : st.appendsAt? = some offset) :
    ∃ e ∈ es, e.span = .point offset ∧ ';' ∈ e.text.toList := by
  obtain ⟨items, references, hitems, hreferences, rfl⟩ := Context.exists_of_edits hes
  obtain ⟨zs, hzs, hmem⟩ := Progress.exists_of_collect hitems (List.mem_map_of_mem hst)
  obtain ⟨changes, hchanges, rfl⟩ := map_eq_ok_iff.1 hzs
  obtain ⟨c, hc, hspan, htext⟩ := Context.exists_append happends hchanges
  exact ⟨c.edit, List.mem_append_left _ (List.mem_append_left _ (hmem _ (List.mem_map_of_mem hc))), hspan, htext⟩

end

end ModuleLowering
