import ModuleLowering.Proofs.Statement.Passage

namespace ModuleLowering

namespace Stream

variable {s : Stream}

inductive NameAt (s : Stream) (i : Nat) : ModuleName → Prop
  | identifier {name : String} (h : s.isWordAt i name) : NameAt s i (.identifier name)
  | reserved {t : Token} {word : Keyword} (ht : s.tokens[i]? = some t) (hk : t.kind = .keyword word) :
      NameAt s i (.identifier t.text)
  | literal {t : Token} (ht : s.tokens[i]? = some t) (hk : t.kind = .string) :
      NameAt s i (.literal t.text (stringValue t.text))

def SpecifierAt (s : Stream) (i : Nat) (specifier : Specifier) : Prop :=
  ∃ t, s.tokens[i]? = some t ∧ t.kind = .string ∧ specifier = ⟨t.text, stringValue t.text, t.span⟩

theorem identifier?_eq_some_iff {i : Nat} {name : String} : s.identifier? i = some name ↔ s.isWordAt i name := by
  rw [isWordAt_iff, identifier?, Option.bind_eq_some_iff]
  refine exists_congr fun t => and_congr_right fun _ => ?_
  split
  · rename_i hk
    simp [hk]
  · rename_i hk
    simp [hk]

theorem specifier?_eq_some_iff {i : Nat} {specifier : Specifier} :
    s.specifier? i = some specifier ↔ s.SpecifierAt i specifier := by
  rw [specifier?, Option.bind_eq_some_iff]
  refine exists_congr fun t => and_congr_right fun _ => ?_
  split
  · rename_i hk
    simp [hk, eq_comm]
  · rename_i hk
    simp [hk]

theorem moduleName?_eq_some_iff {i : Nat} {name : ModuleName} : s.moduleName? i = some name ↔ s.NameAt i name := by
  rw [moduleName?, Option.bind_eq_some_iff]
  constructor
  · rintro ⟨t, ht, h⟩
    split at h
    · cases h
      exact .literal ht ‹_›
    · split at h
      · rename_i hk
        cases h
        cases hkind : t.kind with
        | identifier => exact .identifier (isWordAt_iff.2 ⟨t, ht, hkind, rfl⟩)
        | keyword word => exact .reserved ht hkind
        | _ => simp [hkind, Kind.isIdentifierName] at hk
      · cases h
  · intro h
    cases h with
    | identifier h =>
      obtain ⟨t, ht, hk, rfl⟩ := isWordAt_iff.1 h
      exact ⟨t, ht, by simp [hk, Kind.isIdentifierName]⟩
    | reserved ht hk => exact ⟨_, ht, by simp [hk, Kind.isIdentifierName]⟩
    | literal ht hk => exact ⟨_, ht, by simp [hk]⟩

theorem NameAt.not_isAt {i : Nat} {name : ModuleName} (h : s.NameAt i name) : ¬ s.isAt i .closeBrace :=
  not_isAt_of_moduleName? (moduleName?_eq_some_iff.2 h)

inductive ListAt {α : Type} (s : Stream) (item : Nat → α → Nat → Prop) : Nat → List α → Nat → Prop
  | close {i : Nat} (h : s.isAt i .closeBrace) : ListAt s item i [] (i + 1)
  | last {i j : Nat} {x : α} (hx : item i x j) (h : s.isAt j .closeBrace) : ListAt s item i [x] (j + 1)
  | more {i j k : Nat} {x : α} {xs : List α} (hx : item i x j) (hcomma : s.isAt j .comma)
      (hrest : ListAt s item (j + 1) xs k) : ListAt s item i (x :: xs) k

def Separates (s : Stream) (i : Nat) : Prop := s.isAt i .comma ∨ s.isAt i .closeBrace

theorem Separates.not_isWordAt {i : Nat} (h : s.Separates i) (word : String) : ¬ s.isWordAt i word := by
  intro hword
  have hname := isAt_of_isWordAt hword
  rcases h with h | h
  · cases kind_eq_of_isAt h hname
  · cases kind_eq_of_isAt h hname

/-- Import attributes, or none. What stands between the braces is not looked at; the word `assert` introduces them
only on the line of the specifier. -/
inductive AttributesAt (s : Stream) : Nat → Nat → Prop
  | none (i : Nat) : AttributesAt s i i
  | group {i j : Nat} (hword : s.isAt i (.keyword .«with») ∨
        s.isWordAt i "assert" ∧ ∃ t, s.tokens[i]? = some t ∧ t.lineBreak = false)
      (hopen : s.isAt (i + 1) .openBrace) (hclose : s.closer? (i + 1) = some j) : AttributesAt s i (j + 1)

inductive TerminatorAt (s : Stream) : Nat → Nat → Prop
  | none (i : Nat) : TerminatorAt s i i
  | semicolon {i : Nat} (h : s.isAt i .semicolon) : TerminatorAt s i (i + 1)

theorem terminatorAt_finish (i : Nat) : s.TerminatorAt i (s.finish i) := by
  unfold finish optional
  split
  · exact .semicolon ‹_›
  · exact .none i

theorem TerminatorAt.le_finish {i j : Nat} (h : s.TerminatorAt i j) : j ≤ s.finish i := by
  cases h with
  | none => exact s.le_finish i
  | semicolon h => exact Nat.le_of_eq (if_pos h).symm

theorem introduces_iff {i : Nat} :
    (s.isAt i (.keyword .«with») || (s.isWordAt i "assert" && s.tokens[i]?.any (!·.lineBreak))) ↔
      s.isAt i (.keyword .«with») ∨
        s.isWordAt i "assert" ∧ ∃ t, s.tokens[i]? = some t ∧ t.lineBreak = false := by
  simp [Option.any_eq_true]

theorem WellFormed.attributesAt_skipAttributes {source : List Char} (hs : s.WellFormed source) (i : Nat) :
    s.AttributesAt i (s.skipAttributes i) := by
  unfold skipAttributes
  dsimp only
  split
  · rename_i h
    obtain ⟨hword, hopen⟩ := Bool.and_eq_true_iff.1 h
    obtain ⟨j, hclose, _⟩ := hs.brace (i + 1) hopen
    rw [skip, hclose]
    exact .group (introduces_iff.1 hword) hopen hclose
  · exact .none i

theorem AttributesAt.skipAttributes_eq {i j : Nat} (h : s.AttributesAt i j) (hij : i ≠ j) :
    s.skipAttributes i = j := by
  cases h with
  | none => exact absurd rfl hij
  | group hword hopen hclose =>
    unfold skipAttributes
    dsimp only
    rw [introduces_iff.2 hword, hopen, Bool.and_self, if_pos rfl, skip, hclose]

theorem AttributesAt.le_finish {i j k : Nat} (h : s.AttributesAt i j) (hk : s.TerminatorAt j k) :
    k ≤ s.finish (s.skipAttributes i) := by
  by_cases hij : i = j
  · subst hij
    by_cases hskip : s.skipAttributes i = i
    · rw [hskip]
      exact hk.le_finish
    · have hle := s.le_skipAttributes i
      have hfinish := s.le_finish (s.skipAttributes i)
      have hterminator : k ≤ i + 1 := by cases hk <;> omega
      omega
  · rw [h.skipAttributes_eq hij]
    exact hk.le_finish

end Stream

end ModuleLowering
