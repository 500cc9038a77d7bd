import ModuleLowering.Lowering.Reference
import ModuleLowering.Proofs.Lowering.Holders
import ModuleLowering.Proofs.Lowering.Spelled

namespace ModuleLowering

open Text

def OneLine (w : String) : Prop := '\n' ∉ w.toList

instance (w : String) : Decidable (OneLine w) := inferInstanceAs (Decidable (_ ∉ _))

theorem OneLine.append {v w : String} (hv : OneLine v) (hw : OneLine w) : OneLine (v ++ w) := by
  simpa [OneLine] using And.intro hv hw

theorem oneLine_intercalate {words : List String} (h : ∀ w ∈ words, OneLine w) :
    OneLine (" ".intercalate words) := by
  unfold OneLine
  rw [String.toList_intercalate]
  induction words with
  | nil => simp
  | cons w words ih =>
    cases words with
    | nil => simpa [OneLine] using h
    | cons v words =>
      have hw := h w List.mem_cons_self
      have hrest := ih fun u hu => h u (List.mem_cons_of_mem w hu)
      simp only [List.map_cons, List.intercalate_cons_cons, List.mem_append, not_or] at hrest ⊢
      exact ⟨⟨hw, by decide⟩, hrest⟩

theorem IsSynthetic.oneLine {name : String} (h : IsSynthetic name) : OneLine name :=
  fun hmem => h.2.ne hmem (d := '\n') (by decide) rfl

namespace ModuleName

def written : ModuleName → String
  | identifier name => name
  | literal raw _ => raw

theorem oneLine_accessOn {n : ModuleName} {object : String} (hn : OneLine n.written) (hobject : OneLine object) :
    OneLine (n.accessOn object) := by
  cases n with
  | identifier => exact (hobject.append (by decide)).append hn
  | literal => exact ((hobject.append (by decide)).append hn).append (by decide)

theorem oneLine_quoted {n : ModuleName} (hn : OneLine n.written) : OneLine n.quoted := by
  cases n with
  | identifier => exact (OneLine.append (by decide) hn).append (by decide)
  | literal => exact hn

end ModuleName

theorem Access.oneLine_render {a : Access} (h : OneLine a.holder ∧ OneLine a.property.written) :
    OneLine a.render := ModuleName.oneLine_accessOn h.2 h.1

theorem ReferenceForm.oneLine_render {name : String} {access : Access} (hname : OneLine name)
    (haccess : OneLine access.render) (form : ReferenceForm) : OneLine (form.render name access) := by
  cases form with
  | plain | guarded => exact (OneLine.append (by decide +kernel) haccess).append (by decide +kernel)
  | property => exact ((hname.append (by decide +kernel)).append haccess).append (by decide +kernel)
  | tag => exact haccess

def Line.words : Line → List String
  | require literal => [literal]
  | declare holder literal => [holder, literal]
  | interop holder helper source => [holder, helper, source]
  | assignment name value => [name.written, value]
  | initializer name => [name.written]
  | getter name access => [name.written, access.holder, access.property.written]
  | terminator => []

theorem Line.oneLine_render {line : Line} (h : ∀ w ∈ line.words, OneLine w) : OneLine line.render := by
  have hexports : OneLine "exports" := by decide +kernel
  cases line with
  | require literal =>
    have hliteral := h literal (by simp [words])
    exact (OneLine.append (by decide +kernel) hliteral).append (by decide +kernel)
  | declare holder literal =>
    have hholder := h holder (by simp [words])
    have hliteral := h literal (by simp [words])
    exact (((OneLine.append (by decide +kernel) hholder).append (by decide +kernel)).append hliteral).append
      (by decide +kernel)
  | interop holder helper source =>
    have hholder := h holder (by simp [words])
    have hhelper := h helper (by simp [words])
    have hsource := h source (by simp [words])
    exact (((((OneLine.append (by decide +kernel) hholder).append (by decide +kernel)).append hhelper).append
      (by decide +kernel)).append hsource).append (by decide +kernel)
  | assignment name value =>
    have hname := ModuleName.oneLine_accessOn (h name.written (by simp [words])) hexports
    have hvalue := h value (by simp [words])
    exact ((hname.append (by decide +kernel)).append hvalue).append (by decide +kernel)
  | initializer name =>
    have hname := ModuleName.oneLine_accessOn (h name.written (by simp [words])) hexports
    exact hname.append (by decide +kernel)
  | getter name access =>
    have hname := ModuleName.oneLine_quoted (h name.written (by simp [words]))
    have haccess := Access.oneLine_render
      ⟨h access.holder (by simp [words]), h access.property.written (by simp [words])⟩
    exact (((OneLine.append (by decide +kernel) hname).append (by decide +kernel)).append haccess).append
      (by decide +kernel)
  | terminator => exact (by decide +kernel : OneLine ";")

theorem oneLine_renderLines {lines : List Line} (h : ∀ line ∈ lines, ∀ w ∈ line.words, OneLine w) :
    OneLine (renderLines lines) := by
  refine oneLine_intercalate fun w hw => ?_
  obtain ⟨line, hline, rfl⟩ := List.mem_map.1 hw
  exact Line.oneLine_render (h line hline)

theorem oneLine_prologue {helpers : Option HelperNames} {hasExports : Bool}
    (h : ∀ hs, helpers = some hs → OneLine hs.wildcard ∧ OneLine hs.default) :
    OneLine (prologue helpers hasExports) := by
  refine oneLine_intercalate fun w hw => ?_
  simp only [List.mem_append, List.mem_singleton, Option.mem_toList, Option.map_eq_some_iff] at hw
  rcases hw with (rfl | ⟨hs, hhelpers, rfl⟩) | hw
  · decide +kernel
  · obtain ⟨hwildcard, hdefault⟩ := h hs hhelpers
    unfold HelperNames.bodies
    refine .append (.append (.append (.append (.append (.append (.append ?_ hwildcard) ?_) ?_) ?_) ?_) hdefault) ?_
    all_goals decide +kernel
  · split at hw
    · rw [List.mem_singleton.1 hw]
      decide +kernel
    · cases hw

def ImportClause.words (c : ImportClause) : List String :=
  c.defaultName.toList ++ c.namespaceName.toList ++ c.named.flatMap fun n => [n.imported.written, n.binding]

def ExportStatement.words : ExportStatement → List String
  | defaultExpression _ | defaultAnonymous _ _ => []
  | defaultNamed _ name _ | declaration _ _ name _ => [name]
  | variableList _ declarators _ => declarators.flatMap (·.names)
  | names _ specifiers => specifiers.flatMap fun e => [e.source.value, e.exported.written]
  | namesFrom _ specifiers specifier =>
    specifier.raw :: specifiers.flatMap fun e => [e.source.written, e.exported.written]

def ModuleItem.words : ModuleItem → List String
  | imports st => st.specifier.raw :: st.clause.words
  | exports st => st.words

namespace ModuleItem

theorem mem_words_of_specifier? {item : ModuleItem} {specifier : Specifier} (h : item.specifier? = some specifier) :
    specifier.raw ∈ item.words := by
  unfold specifier? at h
  split at h <;> cases h <;> exact List.mem_cons_self

theorem mem_words_of_namespaceName? {item : ModuleItem} {name : String} (h : item.namespaceName? = some name) :
    name ∈ item.words := by
  cases item with
  | exports => cases h
  | imports st =>
    change st.clause.namespaceName = some name at h
    simp [words, ImportClause.words, h]

end ModuleItem

def OneLineWords (items : List ModuleItem) : Prop := ∀ item ∈ items, ∀ w ∈ item.words, OneLine w

theorem oneLine_of_mem_importedNames {items : List ModuleItem} (h : OneLineWords items) {name : String}
    {o : Origin} (hname : (name, o) ∈ importedNames items) :
    OneLine name ∧ ∀ n, o.imported = .named n → OneLine n.written := by
  obtain ⟨item, hitem, hname⟩ := List.mem_flatMap.1 hname
  have hwords := h item hitem
  cases item with
  | exports => cases hname
  | imports st =>
    obtain ⟨⟨bound, what⟩, hbound, he⟩ := List.mem_map.1 hname
    cases he
    have hclause (w : String) (hw : w ∈ st.clause.words) : OneLine w := hwords w (List.mem_cons_of_mem _ hw)
    simp only [ImportClause.words, List.mem_append, Option.mem_toList, List.mem_flatMap] at hclause
    simp only [ImportClause.bound, List.mem_append, Option.mem_toList, Option.map_eq_some_iff, List.mem_map] at hbound
    rcases hbound with (⟨_, hdefault, he⟩ | ⟨_, hspace, he⟩) | ⟨n, hn, he⟩ <;> cases he
    · exact ⟨hclause _ (.inl (.inl hdefault)), fun _ himported => by cases himported⟩
    · exact ⟨hclause _ (.inl (.inr hspace)), fun _ himported => by cases himported⟩
    · refine ⟨hclause _ (.inr ⟨n, hn, by simp⟩), fun imported himported => ?_⟩
      have hn' := hclause n.imported.written (.inr ⟨n, hn, by simp⟩)
      simp only [NamedImport.what] at himported
      split at himported <;> cases himported
      exact hn'

namespace Requirements

structure OneLineNames (rs : Requirements) : Prop where
  names : ∀ name ∈ rs.names, OneLine name
  literals : ∀ r ∈ rs.records, OneLine r.literal
  namespaces : ∀ r ∈ rs.records, ∀ name ∈ r.namespaces, OneLine name

theorem oneLineNames_allocate {items : List ModuleItem} (h : OneLineWords items) (names : NameRegistry) :
    ((ofItems items).allocate names).1.OneLineNames := by
  have hnamed := named_allocate items names
  have hsynthetic := isSynthetic_of_mem_names items names
  generalize ((ofItems items).allocate names).1 = rs at hnamed hsynthetic ⊢
  refine ⟨fun name hname => (hsynthetic name hname).oneLine, fun r hr => ?_, fun r hr name hname => ?_⟩
  · obtain ⟨item, hitem, _, hliteral⟩ := hnamed.first r hr
    obtain ⟨specifier, hspecifier, hraw⟩ := Option.map_eq_some_iff.1 hliteral
    rw [← hraw]
    exact h item (List.mem_of_mem_filter (List.mem_of_mem_head? hitem)) _
      (ModuleItem.mem_words_of_specifier? hspecifier)
  · rw [(hnamed.gathers r hr).namespaces] at hname
    obtain ⟨item, hitem, hspace⟩ := List.mem_filterMap.1 hname
    exact h item (List.mem_of_mem_filter hitem) name (ModuleItem.mem_words_of_namespaceName? hspace)

namespace OneLineNames

variable {rs : Requirements} (h : rs.OneLineNames)
include h

theorem holders {r : Requirement} (hr : r ∈ rs.records) {name : String} (hname : name ∈ r.holders) :
    OneLine name :=
  h.names name (mem_names_of_holders hr hname)

theorem helpers {helpers : HelperNames} (hhelpers : rs.helpers = some helpers) :
    OneLine helpers.wildcard ∧ OneLine helpers.default := by
  have hmem {name : String} (hname : name ∈ [helpers.wildcard, helpers.default]) :=
    h.names name (mem_names_of_helpers hhelpers hname)
  exact ⟨hmem (by simp), hmem (by simp)⟩

theorem linesOf {r : Requirement} (hr : r ∈ rs.records) :
    ∀ line ∈ rs.linesOf r, ∀ w ∈ line.words, OneLine w := by
  have hliteral := h.literals r hr
  intro line hline
  cases writesFor_of_mem hline with
  | require => simpa [Line.words] using hliteral
  | declare hholder =>
    have hholder := h.holders hr (Requirement.mem_holders_of_holder hholder)
    simpa [Line.words] using ⟨hholder, hliteral⟩
  | ofDefault hholder hhelpers hdefault =>
    have hholder := h.holders hr (Requirement.mem_holders_of_holder hholder)
    have hdefault := h.holders hr (Requirement.mem_holders_of_defaultHolder hdefault)
    simpa [Line.words] using ⟨hdefault, (h.helpers hhelpers).2, hholder⟩
  | ofNamespace hholder hhelpers hname =>
    have hholder := h.holders hr (Requirement.mem_holders_of_holder hholder)
    simpa [Line.words] using ⟨h.namespaces r hr _ hname, (h.helpers hhelpers).1, hholder⟩

theorem linesAt {specifier : String} {offset : Nat} :
    ∀ line ∈ (rs.linesAt specifier offset).getD [], ∀ w ∈ line.words, OneLine w := by
  intro line hline
  obtain ⟨r, hr, hline⟩ := exists_of_linesAt hline
  exact h.linesOf hr line hline

theorem defaultAccess {r : Requirement} (hr : r ∈ rs.records) {a : Access} (ha : r.defaultAccess = some a) :
    OneLine a.holder ∧ OneLine a.property.written := by
  obtain ⟨hproperty, hholder | hfirst⟩ := Requirement.defaultAccess_eq ha <;> rw [hproperty]
  · exact ⟨h.holders hr hholder, (by decide +kernel : OneLine "default")⟩
  · exact ⟨h.namespaces r hr _ (List.mem_of_mem_head? hfirst), (by decide +kernel : OneLine "default")⟩

theorem namedAccess {r : Requirement} (hr : r ∈ rs.records) {n : ModuleName} (hn : OneLine n.written) {a : Access}
    (ha : r.namedAccess n = some a) : OneLine a.holder ∧ OneLine a.property.written := by
  obtain ⟨hproperty, hholder⟩ := Requirement.namedAccess_eq ha
  rw [hproperty]
  exact ⟨h.holders hr hholder, hn⟩

theorem access {o : Origin} (ho : ∀ n, o.imported = .named n → OneLine n.written) {a : Access}
    (ha : rs.access o = some a) : OneLine a.holder ∧ OneLine a.property.written := by
  obtain ⟨r, hr, ha⟩ := Option.bind_eq_some_iff.1 ha
  have hr := List.mem_of_find?_eq_some hr
  cases hwhat : o.imported with
  | everything => simp [hwhat] at ha
  | named n =>
    rw [hwhat] at ha
    exact h.namedAccess hr (ho n hwhat) ha
  | default =>
    rw [hwhat] at ha
    exact h.defaultAccess hr ha

theorem reexportAccess {specifier : String} {n : ModuleName} (hn : OneLine n.written) {a : Access}
    (ha : rs.reexportAccess specifier n = some a) : OneLine a.holder ∧ OneLine a.property.written := by
  obtain ⟨r, hr, ha⟩ := Option.bind_eq_some_iff.1 ha
  have hr := List.mem_of_find?_eq_some hr
  split at ha
  · exact h.defaultAccess hr ha
  · exact h.namedAccess hr hn ha

end OneLineNames

end Requirements

end ModuleLowering
