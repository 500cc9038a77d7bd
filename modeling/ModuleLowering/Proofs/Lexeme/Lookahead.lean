import Mathlib.Data.List.Find
import ModuleLowering.Proofs.Role.Endings
import ModuleLowering.Proofs.Role.Literals

/-!
What a reader looks at behind a token: never past a space. So a token is read alike before any two texts that begin
with a space.
-/

namespace ModuleLowering

open Text

/-- The same texts, or texts that are the same up to a space behind the first `n` characters. -/
inductive Alike (n : Nat) : List Char → List Char → Prop
  | refl (text : List Char) : Alike n text text
  | space {taken rest rest' : List Char} (h : n ≤ taken.length) : Alike n (taken ++ ' ' :: rest) (taken ++ ' ' :: rest')

namespace Alike

variable {n : Nat} {x y : List Char}

theorem mono {m : Nat} (h : Alike n x y) (hmn : m ≤ n) : Alike m x y := by
  cases h with
  | refl => exact .refl _
  | space h => exact .space (Nat.le_trans hmn h)

theorem take (h : Alike n x y) : x.take n = y.take n := by
  cases h with
  | refl => rfl
  | space h => rw [List.take_append_of_le_length h, List.take_append_of_le_length h]

theorem drop {m : Nat} (h : Alike (m + n) x y) : Alike n (x.drop m) (y.drop m) := by
  cases h with
  | refl => exact .refl _
  | @space taken _ _ h =>
    rw [List.drop_append_of_le_length (by omega), List.drop_append_of_le_length (by omega)]
    exact .space (by rw [List.length_drop]; omega)

theorem cons (h : Alike n x y) (c : Char) : Alike (n + 1) (c :: x) (c :: y) := by
  cases h with
  | refl => exact .refl _
  | @space taken rest rest' h =>
    have hlonger : Alike (n + 1) (c :: taken ++ ' ' :: rest) (c :: taken ++ ' ' :: rest') := .space (by simpa using h)
    exact hlonger

theorem eq_of_space {α : Type} {f : List Char → α} (hf : ∀ taken rest, f (taken ++ ' ' :: rest) = f taken)
    (h : Alike n x y) : f x = f y := by
  cases h with
  | refl => rfl
  | space => rw [hf, hf]

theorem of_take {α : Type} {f : List Char → α} {a : α} (hf : ∀ rest, f (x.take n ++ rest) = a) (h : Alike n x y) :
    f y = a := by
  rw [← List.take_append_drop n y, ← h.take]
  exact hf _

theorem eq_nil (h : Alike n [] y) : y = [] := by
  generalize hx : ([] : List Char) = x at h
  cases h with
  | refl => rfl
  | space => simp at hx

theorem head?_eq (h : Alike n x y) : x.head? = y.head? := by
  cases h with
  | refl => rfl
  | @space taken => cases taken <;> rfl

theorem of_append (body : List Char) {tail : List Char} (h : Alike (body.length + n) (body ++ tail) y) :
    ∃ tail', y = body ++ tail' ∧ Alike n tail tail' := by
  have htake := (h.mono (Nat.le_add_right _ n)).take
  have hdrop := h.drop
  rw [List.take_left] at htake
  rw [List.drop_left] at hdrop
  exact ⟨y.drop body.length, by conv => lhs; rw [← List.take_append_drop body.length y, ← htake], hdrop⟩

theorem head?_any {p : Char → Bool} (hp : p ' ' = false) (h : Alike n x y) : x.head?.any p = y.head?.any p := by
  refine h.eq_of_space (f := fun x => x.head?.any p) fun taken rest => ?_
  cases taken with
  | nil => exact hp
  | cons => rfl

end Alike

namespace Lexeme

theorem takeWhile_space {p : Char → Bool} (hp : p ' ' = false) (taken rest : List Char) :
    (taken ++ ' ' :: rest).takeWhile p = taken.takeWhile p := by
  induction taken with
  | nil => simp [hp]
  | cons c taken ih => rw [List.cons_append, List.takeWhile_cons, List.takeWhile_cons, ih]

theorem digitsLength_space (taken rest : List Char) : digitsLength (taken ++ ' ' :: rest) = digitsLength taken :=
  congrArg List.length (takeWhile_space (by decide) taken rest)

theorem digitsLength_le (text : List Char) : digitsLength text ≤ text.length := (List.takeWhile_sublist _).length_le

theorem fractionLength_space (taken rest : List Char) :
    fractionLength (taken ++ ' ' :: rest) = fractionLength taken := by
  cases taken with
  | nil => rfl
  | cons c taken =>
    by_cases hc : c = '.'
    · subst hc
      simp only [List.cons_append, fractionLength, digitsLength_space]
    · rw [List.cons_append, fractionLength, fractionLength]
      · simpa using hc
      · simpa using hc

theorem fractionLength_le (text : List Char) : fractionLength text ≤ text.length := by
  unfold fractionLength
  split
  · rename_i rest
    have := digitsLength_le rest
    rw [List.length_cons]
    omega
  · exact Nat.zero_le _

theorem bigMarkLength_space (taken rest : List Char) : bigMarkLength (taken ++ ' ' :: rest) = bigMarkLength taken := by
  cases taken with
  | nil => rfl
  | cons c taken =>
    by_cases hc : c = 'n'
    · subst hc
      rfl
    · rw [List.cons_append, bigMarkLength, bigMarkLength]
      · simpa using hc
      · simpa using hc

def signLength : List Char → Nat
  | '+' :: _ | '-' :: _ => 1
  | _ => 0

theorem signLength_le (text : List Char) : signLength text ≤ text.length := by
  unfold signLength
  split <;> simp

theorem signLength_space (taken rest : List Char) : signLength (taken ++ ' ' :: rest) = signLength taken := by
  cases taken with
  | nil => rfl
  | cons c taken =>
    unfold signLength
    split <;> simp_all

theorem exponentLength_cons (e : Char) (rest : List Char) :
    exponentLength (e :: rest) =
      if e = 'e' || e = 'E' then
        if (rest.drop (signLength rest)).head?.any (·.isDigit) then
          1 + signLength rest + digitsLength (rest.drop (signLength rest))
        else 0
      else 0 := rfl

theorem exponentLength_space (taken rest : List Char) :
    exponentLength (taken ++ ' ' :: rest) = exponentLength taken := by
  have hdigit (taken : List Char) : (taken ++ ' ' :: rest).head?.any (·.isDigit) = taken.head?.any (·.isDigit) := by
    cases taken <;> rfl
  cases taken with
  | nil => rfl
  | cons e taken =>
    rw [List.cons_append, exponentLength_cons, exponentLength_cons, signLength_space,
      List.drop_append_of_le_length (signLength_le taken), hdigit, digitsLength_space]

theorem exponentLength_le (text : List Char) : exponentLength text ≤ text.length := by
  cases text with
  | nil => exact Nat.zero_le _
  | cons e rest =>
    rw [exponentLength_cons]
    split
    · split
      · rename_i hdigit
        have hle := digitsLength_le (rest.drop (signLength rest))
        have hsign := signLength_le rest
        rw [List.length_drop] at hle
        rw [List.length_cons]
        omega
      · exact Nat.zero_le _
    · exact Nat.zero_le _

theorem decimalLength_space (taken rest : List Char) : decimalLength (taken ++ ' ' :: rest) = decimalLength taken := by
  have hfraction := fractionLength_le (taken.drop (digitsLength taken))
  have hexponent := exponentLength_le
    (taken.drop (digitsLength taken + fractionLength (taken.drop (digitsLength taken))))
  have hdigits := digitsLength_le taken
  rw [List.length_drop] at hfraction hexponent
  simp only [decimalLength, digitsLength_space]
  rw [List.drop_append_of_le_length hdigits, fractionLength_space, List.drop_append_of_le_length (by omega),
    exponentLength_space, List.drop_append_of_le_length (by omega), bigMarkLength_space]

theorem numberLength_space (c : Char) (taken rest : List Char) :
    numberLength (c :: (taken ++ ' ' :: rest)) = numberLength (c :: taken) := by
  have hdecimal := decimalLength_space (c :: taken) rest
  rw [List.cons_append] at hdecimal
  by_cases hc : c = '0'
  · subst hc
    cases taken with
    | nil =>
      rw [List.nil_append] at hdecimal ⊢
      simpa [numberLength] using hdecimal
    | cons mark taken =>
      rw [List.cons_append] at hdecimal ⊢
      rw [numberLength, numberLength, hdecimal, takeWhile_space (by decide)]
  · rw [numberLength, numberLength, hdecimal]
    · rintro _ _ heq
      exact hc (List.cons.inj heq).1
    · rintro _ _ heq
      exact hc (List.cons.inj heq).1

theorem flagsLength_space (taken rest : List Char) : flagsLength (taken ++ ' ' :: rest) = flagsLength taken :=
  congrArg List.length (takeWhile_space (by decide +kernel) taken rest)

theorem isPrefixOf_space {spelling : List Char} (h : ' ' ∉ spelling) (taken rest : List Char) :
    spelling.isPrefixOf (taken ++ ' ' :: rest) = spelling.isPrefixOf taken := by
  induction spelling generalizing taken with
  | nil => simp
  | cons c spelling ih =>
    obtain ⟨hc, hrest⟩ := List.ne_and_not_mem_of_not_mem_cons h
    cases taken with
    | nil => simpa [List.isPrefixOf] using fun heq => absurd heq.symm hc
    | cons d taken => rw [List.cons_append, List.isPrefixOf, List.isPrefixOf, ih hrest]

theorem punctuator?_space (taken rest : List Char) : punctuator? (taken ++ ' ' :: rest) = punctuator? taken := by
  have hfree : ∀ p ∈ punctuators, ' ' ∉ p.1.toList := by decide +kernel
  have hdot : ∀ p ∈ punctuators, p.2 = .questionDot → p.1.toList = ['?', '.'] := by decide +kernel
  have hfind : punctuators.find? (fun p => p.1.toList.isPrefixOf (taken ++ ' ' :: rest)) =
      punctuators.find? fun p => p.1.toList.isPrefixOf taken :=
    List.find?_congr fun p hp => isPrefixOf_space (hfree p hp) taken rest
  unfold punctuator?
  rw [hfind]
  cases hsome : punctuators.find? fun p => p.1.toList.isPrefixOf taken with
  | none => rfl
  | some p =>
    obtain ⟨spelling, kind⟩ := p
    dsimp only
    by_cases hkind : kind = .questionDot
    · -- The two characters of the spelling stand before the space.
      have hprefix : spelling.toList.isPrefixOf taken := List.find?_some (p := fun (p : String × Kind) =>
        p.1.toList.isPrefixOf taken) hsome
      have hspelling : spelling.toList = ['?', '.'] := hdot _ (List.mem_of_find?_eq_some hsome) hkind
      rw [hspelling, List.isPrefixOf_iff_prefix] at hprefix
      obtain ⟨more, rfl⟩ := hprefix
      have hdigit : (more ++ ' ' :: rest).head?.any (·.isDigit) = more.head?.any (·.isDigit) := by
        cases more <;> rfl
      simp only [List.cons_append, List.nil_append, List.drop_succ_cons, List.drop_zero, hdigit]
    · simp only [hkind, decide_false, Bool.false_and]

def Settled {α : Type} (read : List Char → Option α) (text : List Char) (n : Nat) (a : α) : Prop :=
  ∃ body tail, text = body ++ tail ∧ body.length = n ∧ body ≠ [] ∧ ∀ rest, read (body ++ rest) = some a

theorem Settled.singleton {α : Type} {read : List Char → Option α} {c : Char} {a : α}
    (hread : ∀ rest, read (c :: rest) = some a) (tail : List Char) : Settled read (c :: tail) 1 a :=
  ⟨[c], tail, rfl, rfl, List.cons_ne_nil _ _, hread⟩

theorem Settled.cons {α : Type} {read next : List Char → Option α} {c : Char} {rest : List Char} {n : Nat} {a : α}
    (h : Settled next rest n a) {f : α → α}
    (hread : ∀ text, text.head? = rest.head? → read (c :: text) = (next text).map f) :
    Settled read (c :: rest) (n + 1) (f a) := by
  obtain ⟨body, tail, rfl, rfl, hne, hbody⟩ := h
  refine ⟨c :: body, tail, rfl, rfl, List.cons_ne_nil _ _, fun rest => ?_⟩
  obtain ⟨d, ds, rfl⟩ := List.exists_cons_of_ne_nil hne
  rw [List.cons_append, hread (d :: ds ++ rest) rfl, hbody]
  rfl

theorem Settled.alike {α : Type} {read : List Char → Option α} {x y : List Char} {n : Nat} {a : α}
    (h : Settled read x n a) (hxy : Alike n x y) : read y = some a := by
  obtain ⟨body, tail, rfl, rfl, _, hbody⟩ := h
  refine hxy.of_take fun rest => ?_
  rw [List.take_left]
  exact hbody rest

theorem settled_chunkLength {text : List Char} {n : Nat} {e : ChunkEnd} (h : chunkLength text = some (n, e)) :
    Settled chunkLength text n (n, e) := by
  fun_induction chunkLength text generalizing n with
  | case1 => cases h
  | case2 rest =>
    cases h
    exact .singleton (fun _ => rfl) rest
  | case3 c rest ih =>
    obtain ⟨⟨k, _⟩, hk, heq⟩ := Option.map_eq_some_iff.1 h
    cases heq
    obtain ⟨body, tail, rfl, rfl, _, hbody⟩ := ih hk
    exact ⟨'\\' :: c :: body, tail, rfl, rfl, List.cons_ne_nil _ _, fun rest => by simp [chunkLength, hbody]⟩
  | case4 rest =>
    cases h
    exact ⟨['$', '{'], rest, rfl, rfl, List.cons_ne_nil _ _, fun _ => rfl⟩
  | case5 c rest hquote hescape hopen ih =>
    obtain ⟨⟨k, _⟩, hk, heq⟩ := Option.map_eq_some_iff.1 h
    cases heq
    refine (ih hk).cons (f := fun p => (p.1 + 1, p.2)) fun text hhead => ?_
    rw [chunkLength]
    · exact hquote
    · rintro d ds hc rfl
      obtain ⟨tail, rfl⟩ := List.head?_eq_some_iff.1 hhead.symm
      exact hescape d tail hc rfl
    · rintro ds hc rfl
      obtain ⟨tail, rfl⟩ := List.head?_eq_some_iff.1 hhead.symm
      exact hopen tail hc rfl

theorem settled_regexLength {inClass : Bool} {text : List Char} {n : Nat} (h : regexLength inClass text = some n) :
    Settled (regexLength inClass) text n n := by
  have hplain {inClass : Bool} {c : Char} {rest text : List Char} (hhead : text.head? = rest.head?)
      (hescape : ∀ d ds, c = '\\' → rest = d :: ds → False) :
      regexLength inClass (c :: text) =
        if isNewline c then none
        else if c = '[' then (regexLength true text).map (· + 1)
        else if c = ']' then (regexLength false text).map (· + 1)
        else if c = '/' && !inClass then some 1
        else (regexLength inClass text).map (· + 1) := by
    rw [regexLength]
    rintro d ds hc rfl
    obtain ⟨tail, rfl⟩ := List.head?_eq_some_iff.1 hhead.symm
    exact hescape d tail hc rfl
  fun_induction regexLength inClass text generalizing n with
  | case1 | case3 => cases h
  | case2 inClass c rest ih =>
    obtain ⟨k, hk, rfl⟩ := Option.map_eq_some_iff.1 h
    obtain ⟨body, tail, rfl, rfl, _, hbody⟩ := ih hk
    exact ⟨'\\' :: c :: body, tail, rfl, rfl, List.cons_ne_nil _ _, fun rest => by simp [regexLength, hbody]⟩
  | case4 inClass rest hescape hnew ih =>
    obtain ⟨k, hk, rfl⟩ := Option.map_eq_some_iff.1 h
    exact (ih hk).cons (f := (· + 1)) fun text hhead => by simp [hplain hhead hescape, hnew]
  | case5 inClass rest hescape hnew _ ih =>
    obtain ⟨k, hk, rfl⟩ := Option.map_eq_some_iff.1 h
    exact (ih hk).cons (f := (· + 1)) fun text hhead => by simp [hplain hhead hescape, hnew]
  | case6 inClass c rest hescape hnew hopen hclose hslash =>
    cases h
    rw [Bool.and_eq_true, decide_eq_true_eq] at hslash
    obtain ⟨rfl, hclass⟩ := hslash
    exact .singleton (fun text => by simp [regexLength, hnew, hclass]) rest
  | case7 inClass c rest hescape hnew hopen hclose hslash ih =>
    obtain ⟨k, hk, rfl⟩ := Option.map_eq_some_iff.1 h
    refine (ih hk).cons (f := (· + 1)) fun text hhead => ?_
    simp only [hplain hhead hescape, hnew, hopen, hclose, hslash]
    rfl

theorem nameLength_offset {isPart : Char → Bool} {offset n : Nat} {text : List Char}
    (h : nameLength isPart offset text = .ok n) (offset' : Nat) : nameLength isPart offset' text = .ok n := by
  fun_induction nameLength isPart offset text generalizing n offset' with
  | case1 => rw [nameLength, ← h]
  | case2 | case5 | case6 => cases h
  | case3 offset rest k hk read =>
    rename_i ih
    obtain ⟨m, hm, rfl⟩ := map_eq_ok_iff.1 h
    rw [nameLength, hk]
    dsimp only
    rw [ih hm]
    rfl
  | case4 offset rest hbrace digits hdigits =>
    rename_i ih
    obtain ⟨m, hm, rfl⟩ := map_eq_ok_iff.1 h
    rw [nameLength]
    · rw [if_pos hdigits, ih hm]
      rfl
    · exact hbrace
  | case7 offset c rest hbrace hescape hc ih =>
    obtain ⟨m, hm, rfl⟩ := map_eq_ok_iff.1 h
    rw [nameLength, if_pos hc, ih hm]
    · rfl
    · exact hbrace
    · exact hescape
  | case8 offset c rest hbrace hescape hc =>
    rw [nameLength, if_neg hc, ← h]
    · exact hbrace
    · exact hescape

theorem nameLength_cons {isPart : Char → Bool} {c : Char} {rest : List Char} (h : c = '\\' → rest.head? ≠ some 'u')
    (offset : Nat) : nameLength isPart offset (c :: rest) =
      if isPart c then (nameLength isPart (offset + c.utf8Size) rest).map (1 + ·) else .ok 0 := by
  rw [nameLength]
  · rintro _ rfl rfl
    exact h rfl rfl
  · rintro _ rfl rfl
    exact h rfl rfl

theorem findIdx?_alike {p : Char → Bool} {x y : List Char} {k : Nat} (h : x.findIdx? p = some k)
    (hxy : Alike (k + 1) x y) : y.findIdx? p = some k := by
  refine hxy.of_take fun rest => ?_
  rw [List.findIdx?_append, List.findIdx?_take, h]
  simp [Option.guard]

theorem nameLength_alike {isPart : Char → Bool} {offset n : Nat} {x y : List Char}
    (h : nameLength isPart offset x = .ok n) (hxy : Alike n x y) : nameLength isPart offset y = .ok n := by
  fun_induction nameLength isPart offset x generalizing n y with
  | case1 => rw [hxy.eq_nil, nameLength, h]
  | case2 | case5 | case6 => cases h
  | case3 offset rest k hk read =>
    rename_i ih
    obtain ⟨m, hm, rfl⟩ := map_eq_ok_iff.1 h
    obtain ⟨y, rfl, hy⟩ := (hxy.mono (show 3 + (k + 1 + m) ≤ _ by omega)).of_append ['\\', 'u', '{']
    rw [List.cons_append, List.cons_append, List.cons_append, List.nil_append, nameLength,
      findIdx?_alike hk (hy.mono (by omega))]
    dsimp only
    rw [← (hy.mono (show k + 1 ≤ _ by omega)).take, ih hm hy.drop]
    rfl
  | case4 offset rest hbrace digits hdigits =>
    rename_i ih
    obtain ⟨m, hm, rfl⟩ := map_eq_ok_iff.1 h
    obtain ⟨y, rfl, hy⟩ := (hxy.mono (show 2 + (digits.length + m) ≤ _ by omega)).of_append ['\\', 'u']
    have hdrop : rest.drop digits.length = dropBytes 4 rest := by
      conv => lhs; rw [← takeBytes_append_dropBytes 4 rest, List.drop_left]
    have hhead := hy.head?_eq
    rw [hdrop] at hm ih
    rw [← takeBytes_append_dropBytes 4 rest] at hy
    obtain ⟨y, rfl, hrest⟩ := hy.of_append digits
    have htake : takeBytes 4 (digits ++ y) = digits := hdigits ▸ takeBytes_byteLength_append digits y
    rw [List.cons_append, List.cons_append, List.nil_append, nameLength]
    · rw [htake, if_pos hdigits, List.drop_left, ih hm hrest]
      rfl
    · intro more heq
      rw [heq] at hhead
      obtain ⟨rest, rfl⟩ := List.head?_eq_some_iff.1 hhead
      exact hbrace rest rfl
  | case7 offset c rest hbrace hescape hc ih =>
    obtain ⟨m, hm, rfl⟩ := map_eq_ok_iff.1 h
    obtain ⟨y, rfl, hy⟩ := hxy.of_append [c]
    rw [List.singleton_append, nameLength_cons, if_pos hc, ih hm hy]
    · rfl
    · rintro rfl hu
      rw [← hy.head?_eq] at hu
      obtain ⟨rest, rfl⟩ := List.head?_eq_some_iff.1 hu
      exact hescape rest rfl rfl
  | case8 offset c rest hbrace hescape hc =>
    generalize hx : c :: rest = x at hxy
    cases hxy with
    | refl =>
      subst hx
      rw [nameLength, if_neg hc, ← h]
      · exact hbrace
      · exact hescape
    | @space taken rest rest' =>
      obtain _ | ⟨d, taken⟩ := taken
      · cases hx
        rw [List.nil_append, nameLength_cons (c := ' ') (fun h => absurd h (by decide)), if_neg hc, ← h]
      · cases hx
        rw [List.cons_append, nameLength_cons, if_neg hc, ← h]
        rintro rfl hu
        cases taken with
        | nil => cases hu
        | cons d taken =>
          cases hu
          exact hescape _ rfl rfl

section Readers

variable {start : Nat} {c : Char} {x y : List Char} {l : Lexeme}

theorem ite_eq_ok {ε α : Type} {q : Prop} [Decidable q] {x y x' y' : Except ε α} {a : α}
    (h : (if q then x else y) = .ok a) (hx : q → x = .ok a → x' = .ok a) (hy : y = .ok a → y' = .ok a) :
    (if q then x' else y') = .ok a := by
  by_cases hq : q
  · rw [if_pos hq] at h ⊢
    exact hx hq h
  · rw [if_neg hq] at h ⊢
    exact hy h

theorem ofChunk_alike {head : Bool} (h : ofChunk head start x = .ok l) (hxy : Alike l.extra x y) (start' : Nat) :
    ofChunk head start' y = .ok l := by
  unfold ofChunk at h ⊢
  split at h
  · cases h
  all_goals
    rename_i n hchunk
    have hextra : l.extra = n := by cases head <;> cases h <;> rfl
    rw [(settled_chunkLength hchunk).alike (hextra ▸ hxy)]
    exact h

theorem ofWord_alike {previous : Option Token} (h : ofWord previous start c x = .ok l) (hxy : Alike l.extra x y)
    (start' : Nat) : ofWord previous start' c y = .ok l := by
  unfold ofWord at h ⊢
  obtain ⟨n, hn, h⟩ := bind_eq_ok_iff.1 h
  cases n with
  | zero => cases h
  | succ n =>
    cases h
    have htake := hxy.take
    dsimp only at htake
    rw [nameLength_alike (nameLength_offset hn start') (hxy.cons c), htake]
    rfl

theorem ofPunctuator_alike (h : ofPunctuator start c x = .ok l) (hxy : Alike l.extra x y) (start' : Nat) :
    ofPunctuator start' c y = .ok l := by
  unfold ofPunctuator at h ⊢
  rw [← hxy.eq_of_space (f := fun x => punctuator? (c :: x)) fun taken => punctuator?_space (c :: taken)]
  split at h
  · cases h
  · exact h

theorem ofCode_alike {previous : Option Token} {inSubstitution : Bool}
    (h : ofCode previous inSubstitution start c x = .ok l) (hxy : Alike l.extra x y) (start' : Nat) :
    ofCode previous inSubstitution start' c y = .ok l := by
  have hdigit : x.head?.any (·.isDigit) = y.head?.any (·.isDigit) := hxy.head?_any rfl
  have hbegins : beginsElement x = beginsElement y := hxy.head?_any (by decide +kernel)
  unfold ofCode at h ⊢
  rw [hdigit, hbegins] at h
  refine ite_eq_ok h (fun hc h => ?_) fun h => ?_
  · obtain ⟨n, hn, h⟩ := bind_eq_ok_iff.1 h
    cases h
    have hquote : c ≠ '\\' := by
      rintro rfl
      revert hc
      decide
    rw [Settled.alike (exists_of_stringLength hquote (orReject_eq_ok hn)) hxy]
    rfl
  refine ite_eq_ok h (fun _ h => ofChunk_alike h hxy start') fun h => ?_
  refine ite_eq_ok h (fun _ h => ?_) fun h => ?_
  · cases h
    rw [hxy.eq_of_space (f := fun x => numberLength (c :: x)) fun taken rest => numberLength_space c taken rest]
  refine ite_eq_ok h (fun _ h => ?_) fun h => ?_
  · obtain ⟨n, hn, h⟩ := bind_eq_ok_iff.1 h
    have hextra : l.extra = n := by
      split at h <;> cases h
      rfl
    rw [nameLength_alike (nameLength_offset hn (start' + 1)) (hextra ▸ hxy)]
    cases n with
    | zero => cases h
    | succ => exact h
  refine ite_eq_ok h (fun _ h => h) fun h => ?_
  refine ite_eq_ok h (fun _ h => h) fun h => ?_
  refine ite_eq_ok h (fun _ h => h) fun h => ?_
  refine ite_eq_ok h (fun _ h => ite_eq_ok h (fun _ h => ofChunk_alike h hxy start') fun h => h) fun h => ?_
  refine ite_eq_ok h (fun _ h => h) fun h => ?_
  refine ite_eq_ok h (fun _ h => h) fun h => ?_
  refine ite_eq_ok h (fun _ h => ?_) fun h => ?_
  · obtain ⟨n, hn, h⟩ := bind_eq_ok_iff.1 h
    cases h
    rw [(settled_regexLength (orReject_eq_ok hn)).alike (hxy.mono (Nat.le_add_right _ _)),
      hxy.drop.eq_of_space flagsLength_space]
    rfl
  refine ite_eq_ok h (fun _ h => h) fun h => ?_
  exact ite_eq_ok h (fun _ h => ofWord_alike h hxy start') fun h => ofPunctuator_alike h hxy start'

theorem ofTag_alike (h : ofTag start c x = .ok l) (hxy : Alike l.extra x y) (start' : Nat) :
    ofTag start' c y = .ok l := by
  unfold ofTag at h ⊢
  rw [hxy.head?_eq] at h
  refine ite_eq_ok h (fun _ h => h) fun h => ?_
  refine ite_eq_ok h (fun _ h => h) fun h => ?_
  refine ite_eq_ok h (fun _ h => h) fun h => ?_
  refine ite_eq_ok h (fun _ h => h) fun h => ?_
  refine ite_eq_ok h (fun _ h => h) fun h => ?_
  refine ite_eq_ok h (fun _ h => h) fun h => ?_
  refine ite_eq_ok h (fun _ h => ?_) fun h => ?_
  · obtain ⟨n, hn, h⟩ := bind_eq_ok_iff.1 h
    cases h
    rw [findIdx?_alike (orReject_eq_ok hn) hxy]
    rfl
  refine ite_eq_ok h (fun _ h => h) fun h => ?_
  refine ite_eq_ok h (fun _ h => ?_) nofun
  obtain ⟨n, hn, h⟩ := bind_eq_ok_iff.1 h
  cases h
  rw [nameLength_alike (nameLength_offset hn start') ((hxy.cons c).mono (by dsimp only; omega))]
  rfl

theorem takeWhile_alike {p : Char → Bool} (hp : p ' ') (hxy : Alike (x.takeWhile p).length x y) :
    y.takeWhile p = x.takeWhile p := by
  cases hxy with
  | refl => rfl
  | @space taken rest rest' hle =>
    rw [List.takeWhile_append] at hle ⊢
    rw [List.takeWhile_append]
    split
    · rename_i hall
      rw [if_pos hall, List.length_append, List.takeWhile_cons_of_pos hp, List.length_cons] at hle
      omega
    · rfl

theorem ofChild_alike (hxy : Alike (ofChild c x).extra x y) : ofChild c y = ofChild c x := by
  unfold ofChild at hxy ⊢
  rw [← hxy.head?_eq]
  split
  · rfl
  · split
    · rfl
    · rename_i hless hbrace
      rw [if_neg hless, if_neg hbrace] at hxy
      rw [takeWhile_alike rfl hxy]

end Readers

end Lexeme

theorem Scanner.lexeme_alike {s s' : Scanner} {c : Char} {x y : List Char} {l : Lexeme} (h : s.lexeme c x = .ok l)
    (hxy : Alike l.extra x y) (hnesting : s'.nesting = s.nesting) (hback : s'.tokens.back? = s.tokens.back?) :
    s'.lexeme c y = .ok l := by
  unfold lexeme at h ⊢
  rw [hnesting, hback]
  split at h
  · exact Lexeme.ofTag_alike h hxy s'.offset
  · cases h
    rw [Lexeme.ofChild_alike hxy]
  · exact Lexeme.ofCode_alike h hxy s'.offset

end ModuleLowering
