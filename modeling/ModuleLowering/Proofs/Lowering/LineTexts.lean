import ModuleLowering.Proofs.Lowering.Exported
import ModuleLowering.Proofs.Lowering.OneLine
import ModuleLowering.Proofs.Lowering.Requires

/-!
What lines declare, require and call, and what accesses read, told from their text alone.
-/

namespace ModuleLowering

open Text Lexeme

theorem Lexeme.IsName.append_inj {a b x y : List Char} {c d : Char} (ha : IsName a) (hb : IsName b)
    (hc : isJsxNamePart c = false) (hd : isJsxNamePart d = false) (h : a ++ c :: x = b ++ d :: y) :
    a = b ∧ c = d ∧ x = y := by
  induction a generalizing b with
  | nil =>
    cases b with
    | nil => exact ⟨rfl, List.cons.inj h⟩
    | cons e b =>
      obtain ⟨rfl, _⟩ := List.cons.inj h
      exact absurd rfl (hb.ne List.mem_cons_self hc)
  | cons e a ih =>
    cases b with
    | nil =>
      obtain ⟨rfl, _⟩ := List.cons.inj h
      exact absurd rfl (ha.ne List.mem_cons_self hd)
    | cons f b =>
      obtain ⟨rfl, htail⟩ := List.cons.inj h
      obtain ⟨rfl, hrest⟩ := ih (List.forall_mem_cons.1 ha).2 (List.forall_mem_cons.1 hb).2 htail
      exact ⟨rfl, hrest⟩

def Declares (code holder : String) : Prop :=
  IsName holder.toList ∧ ("var " ++ holder ++ " = ").toList <+: code.toList

/-- The code is this call, or declares a variable for its value. -/
inductive Calls (code callee argument : String) : Prop
  | statement (hcallee : IsName callee.toList) (h : code = callee ++ "(" ++ argument ++ ");")
  | value {holder : String} (hholder : IsName holder.toList) (hcallee : IsName callee.toList)
      (h : code = "var " ++ holder ++ " = " ++ (callee ++ "(" ++ argument ++ ");"))

section

variable {code holder callee argument : String} {word rest : List Char} {c : Char}

theorem toList_declaration (holder value : String) : ("var " ++ holder ++ " = " ++ value).toList =
    ['v', 'a', 'r'] ++ ' ' :: (holder.toList ++ ' ' :: '=' :: ' ' :: value.toList) := by
  simp

theorem declaration_inj (hholder : IsName holder.toList) {other value value' : String} (hother : IsName other.toList)
    (h : "var " ++ holder ++ " = " ++ value = "var " ++ other ++ " = " ++ value') :
    holder = other ∧ value = value' := by
  rw [← String.toList_inj, toList_declaration, toList_declaration] at h
  have hrest := (List.cons.inj (List.append_cancel_left h)).2
  obtain ⟨hsame, _, hvalue⟩ := hholder.append_inj hother (by decide) (by decide) hrest
  exact ⟨String.toList_inj.1 hsame, String.toList_inj.1 (by simpa using hvalue)⟩

theorem declares_iff (hholder : IsName holder.toList) (value name : String) :
    Declares ("var " ++ holder ++ " = " ++ value) name ↔ name = holder := by
  constructor
  · rintro ⟨hname, rest, h⟩
    have hcode : "var " ++ name ++ " = " ++ String.ofList rest = "var " ++ holder ++ " = " ++ value := by
      rw [← String.toList_inj, String.toList_append, String.toList_ofList, h]
    exact (declaration_inj hname hholder hcode).1
  · rintro rfl
    exact ⟨hholder, value.toList, (String.toList_append ..).symm⟩

theorem toList_call (callee argument : String) :
    (callee ++ "(" ++ argument ++ ");").toList = callee.toList ++ '(' :: (argument.toList ++ [')', ';']) := by
  simp

theorem call_inj (hcallee : IsName callee.toList) {name value : String} (hname : IsName name.toList)
    (h : callee ++ "(" ++ argument ++ ");" = name ++ "(" ++ value ++ ");") : callee = name ∧ argument = value := by
  rw [← String.toList_inj, toList_call, toList_call] at h
  obtain ⟨hsame, _, hrest⟩ := hcallee.append_inj hname (by decide) (by decide) h
  exact ⟨String.toList_inj.1 hsame, String.toList_inj.1 (List.append_cancel_right hrest)⟩

theorem not_declares (hword : IsName word) (hmark : isJsxNamePart c = false) (hblank : c ≠ ' ')
    (h : code.toList = word ++ c :: rest) : ¬ Declares code holder := by
  rintro ⟨hholder, rest', hcode⟩
  rw [h, String.toList_append, String.toList_append] at hcode
  have hvar : ['v', 'a', 'r'] ++ ' ' :: (holder.toList ++ ' ' :: '=' :: ' ' :: rest') = word ++ c :: rest := by
    simpa using hcode
  have hsame := (IsName.append_inj (by decide) hword (by decide) hmark hvar).2.1
  exact hblank hsame.symm

theorem not_declares_call (hcallee : IsName callee.toList) :
    ¬ Declares (callee ++ "(" ++ argument ++ ");") holder :=
  not_declares hcallee (by decide) (by decide) (toList_call callee argument)

theorem calls_statement_iff (hcallee : IsName callee.toList) {name value : String} :
    Calls (callee ++ "(" ++ argument ++ ");") name value ↔ name = callee ∧ value = argument := by
  constructor
  · intro h
    cases h with
    | statement hname h => exact call_inj hname hcallee h.symm
    | @value other hother _ h =>
      have hdeclares := (declares_iff hother (name ++ "(" ++ value ++ ");") other).2 rfl
      rw [← h] at hdeclares
      exact absurd hdeclares (not_declares_call hcallee)
  · rintro ⟨rfl, rfl⟩
    exact .statement hcallee rfl

theorem calls_value_iff (hholder : IsName holder.toList) (hcallee : IsName callee.toList) {name value : String} :
    Calls ("var " ++ holder ++ " = " ++ (callee ++ "(" ++ argument ++ ");")) name value ↔
      name = callee ∧ value = argument := by
  constructor
  · intro h
    cases h with
    | statement hname h =>
      have hdeclares := (declares_iff hholder (callee ++ "(" ++ argument ++ ");") holder).2 rfl
      rw [h] at hdeclares
      exact absurd hdeclares (not_declares_call hname)
    | @value other hother hname h =>
      exact call_inj hname hcallee (declaration_inj hother hholder h.symm).2
  · rintro ⟨rfl, rfl⟩
    exact .value hholder hcallee rfl

theorem not_calls (hword : IsName word) (hmark : isJsxNamePart c = false) (hblank : c ≠ ' ') (hcall : c ≠ '(')
    (h : code.toList = word ++ c :: rest) : ¬ Calls code callee argument := by
  rintro (⟨hcallee, hcode⟩ | ⟨hholder, _, hcode⟩)
  · rw [hcode, toList_call] at h
    exact hcall (hcallee.append_inj hword (by decide) hmark h).2.1.symm
  · exact not_declares hword hmark hblank h (hcode ▸ (declares_iff hholder _ _).2 rfl)

end

namespace ModuleName

def accessor : ModuleName → List Char
  | identifier name => '.' :: name.toList
  | literal raw _ => '[' :: (raw.toList ++ [']'])

theorem toList_accessOn (n : ModuleName) (object : String) :
    (n.accessOn object).toList = object.toList ++ n.accessor := by
  cases n <;> simp [accessOn, accessor]

theorem exists_accessor (n : ModuleName) : ∃ c rest, n.accessor = c :: rest ∧ isJsxNamePart c = false ∧
    c ≠ ' ' ∧ c ≠ '(' := by
  cases n with
  | identifier name => exact ⟨'.', _, rfl, by decide, by decide, by decide⟩
  | literal raw _ => exact ⟨'[', _, rfl, by decide, by decide, by decide⟩

theorem accessor_eq_iff {n p : ModuleName} :
    n.accessor = p.accessor ↔ n.written = p.written ∧ n.isLiteral = p.isLiteral := by
  cases n <;> cases p <;> simp [accessor, written, isLiteral, String.toList_inj]

end ModuleName

def Reads (code holder : String) (property : ModuleName) : Prop :=
  IsName holder.toList ∧ code = property.accessOn holder

theorem Access.reads_iff {a : Access} (ha : IsName a.holder.toList) (holder : String) (n : ModuleName) :
    Reads a.render holder n ↔
      holder = a.holder ∧ n.written = a.property.written ∧ n.isLiteral = a.property.isLiteral := by
  rw [← ModuleName.accessor_eq_iff, Reads, render, ← String.toList_inj, ModuleName.toList_accessOn,
    ModuleName.toList_accessOn]
  constructor
  · rintro ⟨hholder, h⟩
    obtain ⟨c, rest, hc, hmark, _⟩ := a.property.exists_accessor
    obtain ⟨d, rest', hd, hmark', _⟩ := n.exists_accessor
    rw [hc, hd] at h ⊢
    obtain ⟨hsame, rfl, rfl⟩ := ha.append_inj hholder hmark hmark' h
    exact ⟨(String.toList_inj.1 hsame).symm, rfl⟩
  · rintro ⟨rfl, haccessor⟩
    exact ⟨ha, by rw [haccessor]⟩

/-- What the text of a line shows: the variable that it declares, the literal that it requires, and the helper that it
calls. -/
structure Shows (code : String) (declared required called : Option String) : Prop where
  declares : ∀ holder, Declares code holder ↔ declared = some holder
  requires : ∀ literal, Calls code "require" literal ↔ required = some literal
  calls : ∀ helper, (helper ≠ "require" ∧ ∃ argument, Calls code helper argument) ↔ called = some helper

namespace Line

def IsSpelled : Line → Prop
  | declare holder _ => IsName holder.toList
  | interop holder helper _ => IsName holder.toList ∧ IsName helper.toList ∧ helper ≠ "require"
  | _ => True

theorem isName_require : IsName "require".toList := by decide

theorem shows_of_word {code : String} {word rest : List Char} {c : Char} (hword : IsName word)
    (hmark : isJsxNamePart c = false) (hblank : c ≠ ' ') (hcall : c ≠ '(') (h : code.toList = word ++ c :: rest) :
    Shows code none none none where
  declares holder := iff_of_false (not_declares hword hmark hblank h) (by simp)
  requires literal := iff_of_false (not_calls hword hmark hblank hcall h) (by simp)
  calls helper := by
    refine iff_of_false ?_ (by simp)
    rintro ⟨_, argument, hcalls⟩
    exact not_calls hword hmark hblank hcall h hcalls

theorem shows_access {n : ModuleName} {code after : String} (hcode : code = n.accessOn "exports" ++ after) :
    Shows code none none none := by
  obtain ⟨c, rest, hc, hmark, hblank, hcall⟩ := n.exists_accessor
  have hsplit : code.toList = "exports".toList ++ c :: (rest ++ after.toList) := by
    rw [hcode, String.toList_append, ModuleName.toList_accessOn, hc, List.append_assoc, List.cons_append]
  exact shows_of_word (by decide) hmark hblank hcall hsplit

theorem shows_require (literal : String) :
    Shows ("require" ++ "(" ++ literal ++ ");") none (some literal) none where
  declares holder := iff_of_false (not_declares_call isName_require) (by simp)
  requires value := by
    rw [calls_statement_iff isName_require, Option.some.injEq, eq_comm (a := literal)]
    exact and_iff_right rfl
  calls helper := by
    refine iff_of_false ?_ (by simp)
    rintro ⟨hne, argument, hcalls⟩
    exact hne ((calls_statement_iff isName_require).1 hcalls).1

theorem shows_declaration {holder callee : String} (hholder : IsName holder.toList) (hcallee : IsName callee.toList)
    (argument : String) : Shows ("var " ++ holder ++ " = " ++ (callee ++ "(" ++ argument ++ ");"))
      (some holder) (if callee = "require" then some argument else none)
      (if callee = "require" then none else some callee) where
  declares name := by rw [declares_iff hholder, Option.some.injEq, eq_comm]
  requires value := by
    rw [calls_value_iff hholder hcallee]
    split
    · rename_i hrequire
      rw [Option.some.injEq, eq_comm (a := argument)]
      exact and_iff_right hrequire.symm
    · rename_i hne
      exact iff_of_false (fun h => hne h.1.symm) (by simp)
  calls name := by
    simp only [calls_value_iff hholder hcallee]
    split
    · rename_i hrequire
      refine iff_of_false ?_ (by simp)
      rintro ⟨hne, _, rfl, _⟩
      exact hne hrequire
    · rename_i hne
      rw [Option.some.injEq]
      constructor
      · rintro ⟨_, _, rfl, _⟩
        rfl
      · rintro rfl
        exact ⟨hne, argument, rfl, rfl⟩

theorem IsSpelled.shows {line : Line} (h : line.IsSpelled) :
    Shows line.render line.declared? line.required? line.called? := by
  cases line with
  | require literal => exact shows_require literal
  | declare holder literal =>
    have hopen : " = require(" = " = " ++ ("require" ++ "(") := by decide
    have hcode : (declare holder literal).render =
        "var " ++ holder ++ " = " ++ ("require" ++ "(" ++ literal ++ ");") := by
      change "var " ++ holder ++ " = require(" ++ literal ++ ");" = _
      rw [hopen]
      simp only [String.append_assoc, -String.reduceAppend]
    have hshows := shows_declaration h isName_require literal
    rw [if_pos rfl, if_pos rfl] at hshows
    rw [hcode]
    exact hshows
  | interop holder helper source =>
    obtain ⟨hholder, hhelper, hne⟩ := h
    have hcode : (interop holder helper source).render =
        "var " ++ holder ++ " = " ++ (helper ++ "(" ++ source ++ ");") := by
      change "var " ++ holder ++ " = " ++ helper ++ "(" ++ source ++ ");" = _
      simp only [String.append_assoc]
    have hshows := shows_declaration hholder hhelper source
    rw [if_neg hne, if_neg hne] at hshows
    rw [hcode]
    exact hshows
  | assignment name value =>
    have hcode : (assignment name value).render = name.accessOn "exports" ++ (" = " ++ value ++ ";") := by
      change name.accessOn "exports" ++ " = " ++ value ++ ";" = _
      simp only [String.append_assoc]
    exact shows_access hcode
  | initializer name => exact shows_access (rfl : _ = name.accessOn "exports" ++ " =")
  | getter name access =>
    obtain ⟨rest, hcode⟩ := toList_render_getter name access
    have hopen : "Object.defineProperty(exports, ".toList =
        "Object".toList ++ '.' :: "defineProperty(exports, ".toList := by decide
    rw [hopen, List.append_assoc, List.cons_append] at hcode
    exact shows_of_word (by decide) (by decide) (by decide) (by decide) hcode
  | terminator =>
    have hcode : (";" : String).toList = [] ++ ';' :: [] := by decide
    exact shows_of_word (by simp [IsName]) (by decide) (by decide) (by decide) hcode

end Line

/-- No namespace is bound to a name with an escape, whose text can hold anything. -/
def PlainNamespaces (items : List ModuleItem) : Prop :=
  ∀ item ∈ items, ∀ name, item.namespaceName? = some name → '\\' ∉ name.toList

namespace Requirements

structure SpelledNames (rs : Requirements) : Prop where
  names : ∀ name ∈ rs.names, IsSynthetic name
  namespaces : ∀ r ∈ rs.records, ∀ name ∈ r.namespaces, IsName name.toList

namespace SpelledNames

variable {rs : Requirements} (h : rs.SpelledNames) {r : Requirement} (hr : r ∈ rs.records)
include h

theorem helper {helpers : HelperNames} (hhelpers : rs.helpers = some helpers) {name : String}
    (hname : name ∈ [helpers.wildcard, helpers.default]) : IsName name.toList ∧ name ≠ "require" := by
  have hsynthetic := h.names name (mem_names_of_helpers hhelpers hname)
  exact ⟨hsynthetic.2, hsynthetic.ne (by decide)⟩

include hr

theorem holder {name : String} (hname : name ∈ r.holders) : IsName name.toList :=
  (h.names name (mem_names_of_holders hr hname)).2

theorem isSpelled_linesOf : ∀ line ∈ rs.linesOf r, line.IsSpelled := by
  intro line hline
  cases writesFor_of_mem hline with
  | require => trivial
  | declare hholder => exact h.holder hr (Requirement.mem_holders_of_holder hholder)
  | ofDefault _ hhelpers hdefault =>
    exact ⟨h.holder hr (Requirement.mem_holders_of_defaultHolder hdefault), h.helper hhelpers (by simp)⟩
  | ofNamespace _ hhelpers hname => exact ⟨h.namespaces r hr _ hname, h.helper hhelpers (by simp)⟩

theorem shows {line : Line} (hline : line ∈ rs.linesOf r) :
    Shows line.render line.declared? line.required? line.called? :=
  (h.isSpelled_linesOf hr line hline).shows

theorem exists_requires : ∃ before line after, rs.linesOf r = before ++ line :: after ∧
    Calls line.render "require" r.literal ∧
    ∀ other ∈ before ++ after, ∀ literal, ¬ Calls other.render "require" literal := by
  obtain ⟨before, line, after, hlines, hbefore, hline, hafter⟩ :=
    List.filterMap_eq_cons_iff.1 (rs.required_linesOf r)
  refine ⟨before, line, after, hlines, ((h.shows hr (by simp [hlines])).requires _).2 hline, ?_⟩
  intro other hother literal hcalls
  have hmem : other ∈ rs.linesOf r := by
    rw [hlines, List.mem_append, List.mem_cons]
    exact (List.mem_append.1 hother).imp_right .inr
  have hrequired := ((h.shows hr hmem).requires literal).1 hcalls
  rcases List.mem_append.1 hother with hother | hother
  · simp [hbefore other hother] at hrequired
  · simp [List.filterMap_eq_nil_iff.1 hafter other hother] at hrequired

omit hr

theorem shows_of_mem_lines {line : Line} (hline : line ∈ rs.lines) :
    Shows line.render line.declared? line.required? line.called? := by
  obtain ⟨r, hr, hline⟩ := List.mem_flatMap.1 hline
  exact h.shows hr hline

theorem isName_of_access {o : Origin} {a : Access} (ha : rs.access o = some a) : IsName a.holder.toList := by
  obtain ⟨r, hr, _, hholder | ⟨_, hfirst⟩⟩ := holder_of_access ha
  · exact h.holder hr hholder
  · exact h.namespaces r hr _ (List.mem_of_mem_head? hfirst)

theorem declares_once (hnodup : (rs.lines.filterMap Line.declared?).Nodup) :
    rs.lines.Pairwise fun line line' => ∀ name, Declares line.render name → ¬ Declares line'.render name := by
  refine (List.pairwise_filterMap.1 hnodup).imp_of_mem fun {line line'} hline hline' hdistinct name hname hname' => ?_
  have hdeclared := ((h.shows_of_mem_lines hline).declares name).1 hname
  exact hdistinct name hdeclared name (((h.shows_of_mem_lines hline').declares name).1 hname') rfl

theorem exists_called_iff :
    (∃ line ∈ rs.lines, line.called?.isSome) ↔
      ∃ line ∈ rs.lines, ∃ helper argument, helper ≠ "require" ∧ Calls line.render helper argument := by
  refine exists_congr fun line => and_congr_right fun hline => ?_
  rw [Option.isSome_iff_exists]
  refine exists_congr fun helper => ?_
  rw [← (h.shows_of_mem_lines hline).calls helper, exists_and_left]

end SpelledNames

theorem spelledNames_ofModule {source : List Char} {s : Stream} {m : SourceModule} (hs : scan source = .ok s)
    (hm : s.toModule = .ok m) (hplain : PlainNamespaces m.items) :
    (Context.ofModule source s m true).requirements.SpelledNames := by
  have hnamed := named_allocate m.items (.ofStream s)
  refine ⟨isSynthetic_of_mem_names m.items (.ofStream s), fun r hr name hname => ?_⟩
  rw [(hnamed.gathers r hr).namespaces] at hname
  obtain ⟨item, hitem, hspace⟩ := List.mem_filterMap.1 hname
  have hitem := List.mem_of_mem_filter hitem
  obtain ⟨k, hk⟩ := Stream.exists_identifier_of_namespace hm hitem hspace
  cases Stream.isSpelled_of_isWordAt hs (Stream.identifier?_eq_some_iff.1 hk) (hplain item hitem name hspace) with
  | identifier h => exact h

end Requirements

/-- The texts of the lines alone declare each variable once, those that imported values are read from among them, and
call helpers exactly when there are helpers. -/
theorem line_texts_declare {source : List Char} {s : Stream} {m : SourceModule} (hs : scan source = .ok s)
    (hm : s.toModule = .ok m) (hplain : PlainNamespaces m.items) :
    let rs := (Context.ofModule source s m true).requirements
    (rs.lines.Pairwise fun line line' => ∀ name, Declares line.render name → ¬ Declares line'.render name) ∧
      (∀ b ∈ m.bindings.entries, ∀ o, b.origin = some o → o.imported ≠ .everything →
        ∃ r a, rs.find? o.specifier = some r ∧ rs.access o = some a ∧
          (∀ holder n, Reads a.render holder n ↔
            holder = a.holder ∧ n.written = a.property.written ∧ n.isLiteral = a.property.isLiteral) ∧
          ∃ line ∈ rs.linesOf r, Declares line.render a.holder) ∧
      (rs.helpers.isSome ↔
        ∃ line ∈ rs.lines, ∃ helper argument, helper ≠ "require" ∧ Calls line.render helper argument) := by
  have hnamed := Requirements.named_allocate m.items (.ofStream s)
  have hbinds := Stream.binds_of_toModule hm
  have hspelled := Requirements.spelledNames_ofModule hs hm hplain
  intro rs
  change Requirements.Named m.items (.ofStream s) rs at hnamed
  change rs.SpelledNames at hspelled
  refine ⟨hspelled.declares_once (hnamed.declared_nodup hbinds ?_), fun b hb o ho hne => ?_, ?_⟩
  · exact fun item hitem name hname => Stream.taken_of_namespace hm hitem hname
  · obtain ⟨r, hr, a, hfind, haccess, hprovides⟩ := hnamed.exists_provides (hbinds.entries b hb o ho) hne
    obtain ⟨line, hline, hdeclared⟩ := hprovides.declares
    have hreads := Access.reads_iff (hspelled.isName_of_access haccess)
    exact ⟨r, a, hfind, haccess, hreads, line, hline, ((hspelled.shows hr hline).declares _).2 hdeclared⟩
  · exact hnamed.helpers_isSome_iff.trans hspelled.exists_called_iff

/-- Of the texts for a module exactly one requires it, by the literal that its first statement names it by. -/
theorem line_texts_require {source : List Char} {s : Stream} {m : SourceModule} (hs : scan source = .ok s)
    (hm : s.toModule = .ok m) (hplain : PlainNamespaces m.items) :
    let rs := (Context.ofModule source s m true).requirements
    ∀ specifier ∈ specifierValues m.items, ∃ r before line after, rs.find? specifier = some r ∧
      (itemsFor specifier m.items).head?.bind (·.specifier?.map (·.raw)) = some r.literal ∧
      rs.linesOf r = before ++ line :: after ∧ Calls line.render "require" r.literal ∧
      ∀ other ∈ before ++ after, ∀ literal, ¬ Calls other.render "require" literal := by
  intro rs specifier hspecifier
  have hnamed := Requirements.named_allocate m.items (.ofStream s)
  obtain ⟨item, hitem⟩ := List.exists_mem_of_ne_nil _ (mem_specifierValues.1 hspecifier)
  obtain ⟨r, hr, rfl⟩ := hnamed.exists_of_itemsFor hitem
  obtain ⟨first, hhead, _, hliteral⟩ := hnamed.first r hr
  obtain ⟨before, line, after, hlines⟩ := (Requirements.spelledNames_ofModule hs hm hplain).exists_requires hr
  exact ⟨r, before, line, after, hnamed.find?_eq hr, by rw [hhead, Option.bind_some, hliteral], hlines⟩

end ModuleLowering
