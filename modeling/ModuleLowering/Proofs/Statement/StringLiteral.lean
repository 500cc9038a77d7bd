import ModuleLowering.Proofs.Lowering.Requires
import ModuleLowering.Proofs.Statement.Phrases
import ModuleLowering.Proofs.Text.CodeUnits

/-!
What a string literal of strict mode denotes, in UTF-16 code units, against the value that it is compared by.
-/

namespace ModuleLowering

open Text

inductive Element
  | char (c : Char)
  | surrogate (n : Nat)
  deriving DecidableEq

namespace Element

def ofCode (n : Nat) : Element := if n.isValidChar then .char (Char.ofNat n) else .surrogate n

def units : Element → List Nat
  | char c => codeUnits c
  | surrogate n => [n]

def char? : Element → Option Char
  | char c => some c
  | surrogate _ => none

def isChar (e : Element) : Bool := e.char?.isSome

end Element

def unitsOf (es : List Element) : List Nat := es.flatMap (·.units)

namespace StringValue

inductive HexValue : List Char → Nat → Prop
  | nil : HexValue [] 0
  | snoc {digits : List Char} {c : Char} {n d : Nat} (h : HexValue digits n)
      (hc : "0123456789abcdef".toList[d]? = some c ∨ "0123456789ABCDEF".toList[d]? = some c) :
      HexValue (digits ++ [c]) (16 * n + d)

def controls : List (Char × Char) :=
  [('n', '\n'), ('t', '\t'), ('r', '\r'), ('b', '\x08'), ('f', '\x0C'), ('v', '\x0B')]

def letters : List Char := ['n', 't', 'r', 'b', 'f', 'v', 'x', 'u']

def lineTerminators : List Char := ['\n', '\r', '\u2028', '\u2029']

inductive Escape : List Char → List Element → List Char → Prop
  | control {c value : Char} {rest : List Char} (hc : (c, value) ∈ controls) : Escape (c :: rest) [.char value] rest
  | null {rest : List Char} (hrest : ∀ c ∈ rest.head?, c.isDigit = false) : Escape ('0' :: rest) [.char '\x00'] rest
  | byte {digits rest : List Char} {n : Nat} (hn : HexValue digits n) (hlength : digits.length = 2) :
      Escape ('x' :: (digits ++ rest)) [.ofCode n] rest
  | unit {digits rest : List Char} {n : Nat} (hn : HexValue digits n) (hlength : digits.length = 4) :
      Escape ('u' :: (digits ++ rest)) [.ofCode n] rest
  | codePoint {digits rest : List Char} {n : Nat} (hn : HexValue digits n) (hne : digits ≠ [])
      (hmax : n ≤ 0x10FFFF) : Escape ('u' :: '\x7b' :: (digits ++ '\x7d' :: rest)) [.ofCode n] rest
  | lineBreak {c : Char} {rest : List Char} (hc : c ∈ lineTerminators) (hrest : c = '\r' → rest.head? ≠ some '\n') :
      Escape (c :: rest) [] rest
  | lineBreakPair {rest : List Char} : Escape ('\r' :: '\n' :: rest) [] rest
  | identity {c : Char} {rest : List Char} (hdigit : c.isDigit = false) (hc : c ∉ letters)
      (hbreak : c ∉ lineTerminators) : Escape (c :: rest) [.char c] rest

inductive Denotes (quote : Char) : List Char → List Element → Prop
  | nil : Denotes quote [] []
  | char {c : Char} {rest : List Char} {es : List Element} (hc : c ∉ ['\\', quote, '\n', '\r'])
      (h : Denotes quote rest es) : Denotes quote (c :: rest) (.char c :: es)
  | escape {text rest : List Char} {es es' : List Element} (he : Escape text es rest) (h : Denotes quote rest es') :
      Denotes quote ('\\' :: text) (es ++ es')

def Spells (raw : String) (es : List Element) : Prop :=
  ∃ quote ∈ ['\'', '"'], ∃ text, raw.toList = quote :: (text ++ [quote]) ∧ Denotes quote text es

theorem hexDigit?_of_getElem? {c : Char} {d : Nat}
    (hc : "0123456789abcdef".toList[d]? = some c ∨ "0123456789ABCDEF".toList[d]? = some c) :
    hexDigit? c = some d := by
  have hlower : ∀ d : Fin 16, hexDigit? ("0123456789abcdef".toList[d]) = some d.val := by decide
  have hupper : ∀ d : Fin 16, hexDigit? ("0123456789ABCDEF".toList[d]) = some d.val := by decide
  rcases hc with hc | hc
  · obtain ⟨hd, rfl⟩ := List.getElem?_eq_some_iff.1 hc
    exact hlower ⟨d, hd⟩
  · obtain ⟨hd, rfl⟩ := List.getElem?_eq_some_iff.1 hc
    exact hupper ⟨d, hd⟩

theorem HexValue.hexNumber? {digits : List Char} {n : Nat} (h : HexValue digits n) : hexNumber? digits = some n := by
  induction h with
  | nil => rfl
  | snoc h hc ih =>
    rw [Text.hexNumber?, List.foldlM_append, ← Text.hexNumber?, ih]
    simp [hexDigit?_of_getElem? hc]

theorem HexValue.isHexDigit {digits : List Char} {n : Nat} (h : HexValue digits n) :
    ∀ c ∈ digits, (hexDigit? c).isSome := by
  induction h with
  | nil => exact fun c hc => absurd hc List.not_mem_nil
  | snoc h hc ih =>
    refine List.forall_mem_append.2 ⟨ih, List.forall_mem_singleton.2 ?_⟩
    rw [hexDigit?_of_getElem? hc]
    rfl

theorem unescape_cons {c : Char} {rest : List Char} (hc : c ≠ '\\') : unescape (c :: rest) = c :: unescape rest := by
  simp [unescape, hc]

theorem codePoint_of_hexNumber? {digits : List Char} {n : Nat} (hne : digits ≠ [])
    (hplus : ∀ rest, digits ≠ '+' :: rest) (hn : hexNumber? digits = some n) :
    codePoint digits = if n.isValidChar then [Char.ofNat n] else [] := by
  unfold codePoint
  split
  · exact absurd rfl (hplus _)
  · dsimp only
    rw [hn]
    cases digits with
    | nil => exact absurd rfl hne
    | cons => rfl

theorem unescape_unit {digits rest : List Char} (hlength : digits.length = 4) (hbrace : '\x7b' ∉ digits) :
    unescape ('\\' :: 'u' :: (digits ++ rest)) = codePoint digits ++ unescape rest := by
  have hhead (tail : List Char) (h : digits ++ rest = '\x7b' :: tail) : False := by
    obtain ⟨x, xs, rfl⟩ := List.exists_cons_of_length_eq_add_one hlength
    obtain ⟨rfl, _⟩ := List.cons.inj h
    exact hbrace List.mem_cons_self
  rw [unescape]
  · rw [if_pos rfl, ← hlength, List.take_left, List.drop_left]
  · simp
  · exact fun tail _ => hhead tail
  all_goals simp

theorem unescape_byte {digits rest : List Char} (hlength : digits.length = 2) :
    unescape ('\\' :: 'x' :: (digits ++ rest)) = codePoint digits ++ unescape rest := by
  rw [unescape]
  · rw [if_neg (by decide), if_pos rfl, ← hlength, List.take_left, List.drop_left]
  all_goals simp

theorem unescape_codePoint {digits rest : List Char} (hclose : '\x7d' ∉ digits) :
    unescape ('\\' :: 'u' :: '\x7b' :: (digits ++ '\x7d' :: rest)) = codePoint digits ++ unescape rest := by
  have hdigits : (digits ++ '\x7d' :: rest).takeWhile (· != '\x7d') = digits := by
    rw [List.takeWhile_append_of_pos]
    · simp
    · intro c hc
      rw [bne_iff_ne]
      rintro rfl
      exact hclose hc
  rw [unescape, hdigits, ← List.singleton_append, ← List.append_assoc, List.drop_left' (by simp)]

theorem unescape_identity {c : Char} {rest : List Char} (hc : c ∉ letters) (hdigit : c.isDigit = false)
    (hbreak : c ∉ lineTerminators) : unescape ('\\' :: c :: rest) = c :: unescape rest := by
  simp only [letters, List.mem_cons, List.not_mem_nil, or_false, not_or] at hc
  simp only [lineTerminators, List.mem_cons, List.not_mem_nil, or_false, not_or] at hbreak
  have hzero : c ≠ '0' := by
    rintro rfl
    cases hdigit
  simp [unescape, hc, hbreak]

namespace HexValue

variable {digits : List Char} {n : Nat}

theorem notMem (h : HexValue digits n) {c : Char} (hc : (hexDigit? c).isSome = false) : c ∉ digits := by
  intro hmem
  rw [h.isHexDigit c hmem] at hc
  cases hc

theorem codePoint_eq (h : HexValue digits n) (hne : digits ≠ []) :
    codePoint digits = [Element.ofCode n].filterMap (·.char?) := by
  have hplus (rest : List Char) (heq : digits = '+' :: rest) : False := by
    apply h.notMem (c := '+') rfl
    rw [heq]
    exact List.mem_cons_self
  rw [codePoint_of_hexNumber? hne hplus h.hexNumber?, Element.ofCode]
  split <;> rfl

end HexValue

theorem Escape.unescape_eq {text rest : List Char} {es : List Element} (h : Escape text es rest) :
    unescape ('\\' :: text) = es.filterMap (·.char?) ++ unescape rest := by
  have hne {digits : List Char} {k : Nat} (hlength : digits.length = k + 1) : digits ≠ [] :=
    List.ne_nil_of_length_eq_add_one hlength
  cases h with
  | control hc =>
    simp only [controls, List.mem_cons, List.not_mem_nil, or_false, Prod.mk.injEq] at hc
    rcases hc with ⟨rfl, rfl⟩ | ⟨rfl, rfl⟩ | ⟨rfl, rfl⟩ | ⟨rfl, rfl⟩ | ⟨rfl, rfl⟩ | ⟨rfl, rfl⟩ <;>
      simp [unescape, Element.char?]
  | null => simp [unescape, Element.char?]
  | byte hn hlength => rw [unescape_byte hlength, hn.codePoint_eq (hne hlength)]
  | unit hn hlength => rw [unescape_unit hlength (hn.notMem rfl), hn.codePoint_eq (hne hlength)]
  | codePoint hn hempty => rw [unescape_codePoint (hn.notMem rfl), hn.codePoint_eq hempty]
  | lineBreak hc hrest =>
    simp only [lineTerminators, List.mem_cons, List.not_mem_nil, or_false] at hc
    rcases hc with rfl | rfl | rfl | rfl
    · simp [unescape]
    · rw [unescape]
      · rw [if_neg (by decide), if_neg (by decide)]
        rfl
      · rintro tail - rfl
        exact hrest rfl rfl
      · simp
    · simp [unescape]
    · simp [unescape]
  | lineBreakPair => simp [unescape]
  | identity hdigit hc hbreak => rw [unescape_identity hc hdigit hbreak]; rfl

theorem Denotes.unescape_eq {quote : Char} {text : List Char} {es : List Element} (h : Denotes quote text es) :
    unescape text = es.filterMap (·.char?) := by
  induction h with
  | nil => rw [unescape]; rfl
  | char hc _ ih =>
    rw [unescape_cons (List.ne_of_not_mem_cons hc), ih]
    rfl
  | escape he _ ih => rw [he.unescape_eq, ih, List.filterMap_append]

theorem denotes_chars {quote : Char} (cs : List Char) {text : List Char} {es : List Element}
    (h : Denotes quote text es) (hcs : ∀ c ∈ cs, c ∉ ['\\', quote, '\n', '\r']) :
    Denotes quote (cs ++ text) (cs.map .char ++ es) := by
  induction cs with
  | nil => exact h
  | cons c cs ih =>
    rw [List.forall_mem_cons] at hcs
    exact .char hcs.1 (ih hcs.2)

theorem Spells.value_eq {raw : String} {es : List Element} (h : Spells raw es) :
    (stringValue raw).toList = es.filterMap (·.char?) := by
  obtain ⟨quote, _, text, hraw, htext⟩ := h
  rw [stringValue, String.toList_ofList, hraw, List.drop_one, List.tail_cons, List.dropLast_concat]
  exact htext.unescape_eq

end StringValue

theorem unitsOf_filter_isChar (es : List Element) :
    unitsOf (es.filter (·.isChar)) = (es.filterMap (·.char?)).flatMap codeUnits := by
  induction es with
  | nil => rfl
  | cons e es ih =>
    cases e with
    | char c => exact congrArg (codeUnits c ++ ·) ih
    | surrogate n => exact ih

open StringValue

theorem StringValue.Spells.value_eq_iff {raw raw' : String} {es es' : List Element} (h : Spells raw es)
    (h' : Spells raw' es') :
    stringValue raw = stringValue raw' ↔ unitsOf (es.filter (·.isChar)) = unitsOf (es'.filter (·.isChar)) := by
  rw [unitsOf_filter_isChar, unitsOf_filter_isChar, flatMap_codeUnits_inj, ← h.value_eq, ← h'.value_eq,
    String.toList_inj]

namespace Stream

variable {s : Stream}

theorem value_of_specifier? {i : Nat} {specifier : Specifier} (h : s.specifier? i = some specifier) :
    specifier.value = stringValue specifier.raw := by
  obtain ⟨t, _, _, rfl⟩ := specifier?_eq_some_iff.1 h
  rfl

theorem Reads.value_eq {r : Reading} (h : s.Reads r) {specifier : Specifier}
    (hspecifier : r.item.specifier? = some specifier) : specifier.value = stringValue specifier.raw := by
  cases h with
  | imports _ _ _ hi =>
    unfold importStatement at hi
    split at hi
    · cases hi
    · split at hi
      · cases hi
      · rename_i hread
        cases hi
        cases hspecifier
        exact value_of_specifier? hread
  | exports _ _ _ hi =>
    cases hi with
    | namesFrom _ _ _ hread =>
      cases hspecifier
      exact value_of_specifier? hread
    | _ => cases hspecifier

theorem value_eq_of_toModule {m : SourceModule} (hm : s.toModule = .ok m) {item : ModuleItem}
    (hitem : item ∈ m.items) {specifier : Specifier} (hspecifier : item.specifier? = some specifier) :
    specifier.value = stringValue specifier.raw := by
  obtain ⟨_, rs, hrs⟩ := readings_of_toModule hm
  rw [hrs.items_eq] at hitem
  obtain ⟨r, hr, rfl⟩ := List.mem_map.1 hitem
  exact (hrs.reads r hr).value_eq hspecifier

end Stream

theorem exists_pair_of_map {α β : Type} {f : α → β} {xs : List α} {y y' : β} (h : xs.map f = [y, y']) :
    ∃ x x', xs = [x, x'] ∧ f x = y ∧ f x' = y' := by
  obtain ⟨x, tail, rfl, hx, htail⟩ := List.map_eq_cons_iff.1 h
  obtain ⟨x', last, rfl, hx', hlast⟩ := List.map_eq_cons_iff.1 htail
  obtain rfl := List.map_eq_nil_iff.1 hlast
  exact ⟨x, x', rfl, hx, hx'⟩

/-- Literals are compared by what they denote without its surrogate escapes, and so are the modules they name. -/
theorem specifiers_merge_iff {raw raw' : String} {es es' : List Element} (h : Spells raw es)
    (h' : Spells raw' es') :
    (stringValue raw = stringValue raw' ↔ unitsOf (es.filter (·.isChar)) = unitsOf (es'.filter (·.isChar))) ∧
    (es.all (·.isChar) → es'.all (·.isChar) → (stringValue raw = stringValue raw' ↔ unitsOf es = unitsOf es')) ∧
    ∀ source s m, scan source = .ok s → s.toModule = .ok m → ∀ item ∈ m.items, ∀ item' ∈ m.items,
      ∀ specifier specifier', item.specifier? = some specifier → item'.specifier? = some specifier' →
      specifier.raw = raw → specifier'.raw = raw' →
      let rs := (Context.ofModule source s m true).requirements
      ∃ r r', rs.find? specifier.value = some r ∧ rs.find? specifier'.value = some r' ∧
        (rs.linesOf r).filterMap Line.required? = [r.literal] ∧
        (rs.linesOf r').filterMap Line.required? = [r'.literal] ∧
        (r = r' ↔ unitsOf (es.filter (·.isChar)) = unitsOf (es'.filter (·.isChar))) := by
  have hvalue := h.value_eq_iff h'
  refine ⟨hvalue, fun hall hall' => ?_, ?_⟩
  · rw [hvalue, List.filter_eq_self.2 (List.all_eq_true.1 hall), List.filter_eq_self.2 (List.all_eq_true.1 hall')]
  · rintro source s m hs hm item hitem item' hitem' specifier specifier' hspecifier hspecifier' rfl rfl
    have hnamed := Requirements.named_allocate m.items (.ofStream s)
    have hfound {item : ModuleItem} (hitem : item ∈ m.items) {specifier : Specifier}
        (hspecifier : item.specifier? = some specifier) :
        ∃ r ∈ (Context.ofModule source s m true).requirements.records, r.specifier = stringValue specifier.raw := by
      have hfor : item ∈ itemsFor specifier.value m.items :=
        List.mem_filter.2 ⟨hitem, by simp [ModuleItem.isFor, hspecifier]⟩
      obtain ⟨r, hr, heq⟩ := hnamed.exists_of_itemsFor hfor
      exact ⟨r, hr, heq.trans (Stream.value_eq_of_toModule hm hitem hspecifier)⟩
    obtain ⟨r, hr, heq⟩ := hfound hitem hspecifier
    obtain ⟨r', hr', heq'⟩ := hfound hitem' hspecifier'
    rw [Stream.value_eq_of_toModule hm hitem hspecifier, Stream.value_eq_of_toModule hm hitem' hspecifier', ← hvalue,
      ← heq, ← heq']
    refine ⟨r, r', hnamed.find?_eq hr, hnamed.find?_eq hr', Requirements.required_linesOf _ r,
      Requirements.required_linesOf _ r', congrArg _, fun hsame => ?_⟩
    have hfind := hnamed.find?_eq hr
    rw [hsame] at hfind
    exact Option.some.inj (hfind.symm.trans (hnamed.find?_eq hr'))

theorem specifiers_merge_escaped :
    let source := "import '\\x41\\u\x7b01F600\x7d';\nimport \"A😀\";\n".toList
    let raw := "'\\x41\\u\x7b01F600\x7d'"
    let raw' := "\"A😀\""
    let es := ['A', '😀'].map Element.char
    Spells raw es ∧ Spells raw' es ∧ stringValue raw = stringValue raw' ∧
      ∃ s m p p' r, scan source = .ok s ∧ s.toModule = .ok m ∧ m.items.filterMap (·.specifier?) = [p, p'] ∧
        p.raw = raw ∧ p'.raw = raw' ∧ (Context.ofModule source s m true).requirements.find? p.value = some r ∧
        (Context.ofModule source s m true).requirements.find? p'.value = some r := by
  intro source raw raw' es
  have hbyte : HexValue ['4', '1'] 0x41 := (HexValue.nil.snoc (d := 4) (.inl rfl)).snoc (d := 1) (.inl rfl)
  have hcode : HexValue ['0', '1', 'F', '6', '0', '0'] 0x1F600 :=
    (((((HexValue.nil.snoc (d := 0) (.inl rfl)).snoc (d := 1) (.inl rfl)).snoc (d := 15) (.inr rfl)).snoc (d := 6)
      (.inl rfl)).snoc (d := 0) (.inl rfl)).snoc (d := 0) (.inl rfl)
  have hescaped : Spells raw es := by
    refine ⟨'\'', by decide, "\\x41\\u\x7b01F600\x7d".toList, by decide, ?_⟩
    exact .escape (.byte hbyte rfl) (.escape (.codePoint hcode (by decide) (by decide)) .nil)
  have hplain : Spells raw' es :=
    ⟨'"', by decide, ['A', '😀'], by decide, denotes_chars ['A', '😀'] .nil (by simp)⟩
  obtain ⟨s, m, hs, hm, h⟩ := exists_of_acceptsModule source (fun s m =>
    (m.items.filterMap (·.specifier?)).map (·.raw) = [raw, raw']) (by decide +kernel)
  obtain ⟨p, p', hitems, hp, hp'⟩ := exists_pair_of_map (of_decide_eq_true h)
  obtain ⟨hvalue, -, hmodules⟩ := specifiers_merge_iff hescaped hplain
  obtain ⟨item, hitem, hspecifier⟩ := List.mem_filterMap.1 (hitems ▸ List.mem_cons_self)
  obtain ⟨item', hitem', hspecifier'⟩ :=
    List.mem_filterMap.1 (hitems ▸ List.mem_cons_of_mem p List.mem_cons_self)
  obtain ⟨r, r', hfind, hfind', -, -, hmerge⟩ :=
    hmodules source s m hs hm item hitem item' hitem' p p' hspecifier hspecifier' hp hp'
  rw [← hmerge.2 rfl] at hfind'
  exact ⟨hescaped, hplain, hvalue.2 rfl, s, m, p, p', r, hs, hm, hitems, hp, hp', hfind, hfind'⟩

/-- Two specifiers that denote different names are merged. -/
theorem surrogates_dropped :
    let source := "import './x\\uD83D\\uDE00';\nimport './x';\n".toList
    let es := ['.', '/', 'x'].map Element.char ++ [.surrogate 0xD83D, .surrogate 0xDE00]
    let es' := ['.', '/', 'x'].map Element.char
    ∃ s m p p', scan source = .ok s ∧ s.toModule = .ok m ∧ m.items.filterMap (·.specifier?) = [p, p'] ∧
      Spells p.raw es ∧ Spells p'.raw es' ∧ unitsOf es ≠ unitsOf es' ∧ stringValue p.raw = stringValue p'.raw ∧
      (Context.ofModule source s m true).requirements.records.length = 1 := by
  intro source es es'
  have hhigh : HexValue ['D', '8', '3', 'D'] 0xD83D :=
    (((HexValue.nil.snoc (d := 13) (.inr rfl)).snoc (d := 8) (.inl rfl)).snoc (d := 3) (.inl rfl)).snoc (d := 13)
      (.inr rfl)
  have hlow : HexValue ['D', 'E', '0', '0'] 0xDE00 :=
    (((HexValue.nil.snoc (d := 13) (.inr rfl)).snoc (d := 14) (.inr rfl)).snoc (d := 0) (.inl rfl)).snoc (d := 0)
      (.inl rfl)
  have hpair : Spells "'./x\\uD83D\\uDE00'" es := by
    refine ⟨'\'', by decide, ['.', '/', 'x'] ++ "\\uD83D\\uDE00".toList, by decide, ?_⟩
    refine denotes_chars ['.', '/', 'x'] ?_ (by simp)
    exact .escape (.unit hhigh rfl) (.escape (.unit hlow rfl) .nil)
  have hplain : Spells "'./x'" es' :=
    ⟨'\'', by decide, ['.', '/', 'x'], by decide, denotes_chars ['.', '/', 'x'] .nil (by simp)⟩
  obtain ⟨s, m, hs, hm, h⟩ := exists_of_acceptsModule source (fun s m =>
    (m.items.filterMap (·.specifier?)).map (·.raw) = ["'./x\\uD83D\\uDE00'", "'./x'"] &&
      decide ((Context.ofModule source s m true).requirements.records.length = 1)) (by decide +kernel)
  obtain ⟨h, hone⟩ := Bool.and_eq_true_iff.1 h
  obtain ⟨p, p', hitems, hp, hp'⟩ := exists_pair_of_map (of_decide_eq_true h)
  refine ⟨s, m, p, p', hs, hm, hitems, hp ▸ hpair, hp' ▸ hplain, by decide, ?_, of_decide_eq_true hone⟩
  rw [hp, hp']
  decide +kernel

end ModuleLowering
