import ModuleLowering.Lexeme.Literal
import ModuleLowering.Text.Bytes

/-!
Literals byte by byte. A reader that goes over the bytes of a text takes two of them along for a backslash and
so comes to stand inside a character; nothing that it stops at is a byte of a longer character, so it stops
where the reader of characters does.
-/

namespace ModuleLowering

open Text

def utf8 (text : List Char) : List UInt8 := text.flatMap String.utf8EncodeChar

def asciiByte (c : Char) : UInt8 := UInt8.ofNat c.toNat

@[simp] theorem utf8_nil : utf8 [] = [] := rfl

theorem utf8_cons (c : Char) (rest : List Char) : utf8 (c :: rest) = String.utf8EncodeChar c ++ utf8 rest :=
  rfl

theorem utf8EncodeChar_of_lt {c : Char} (h : c.toNat < 128) : String.utf8EncodeChar c = [asciiByte c] := by
  have hle : c.val.toNat ≤ 127 := Nat.le_of_lt_succ h
  simp only [String.utf8EncodeChar, if_pos hle]
  rfl

theorem le_of_mem_utf8EncodeChar {c : Char} (h : 128 ≤ c.toNat) :
    ∀ b ∈ String.utf8EncodeChar c, 128 ≤ b.toNat := by
  have hnot : ¬ c.val.toNat ≤ 127 := Nat.not_le.2 h
  simp only [String.utf8EncodeChar, if_neg hnot]
  repeat' split
  all_goals
    simp only [List.mem_cons, List.not_mem_nil, or_false, forall_eq_or_imp, forall_eq, UInt8.toNat_ofNat']
    omega

theorem utf8_cons_of_lt {c : Char} (h : c.toNat < 128) (rest : List Char) :
    utf8 (c :: rest) = asciiByte c :: utf8 rest := by
  rw [utf8_cons, utf8EncodeChar_of_lt h]
  rfl

theorem utf8Size_of_lt {c : Char} (h : c.toNat < 128) : c.utf8Size = 1 := by
  rw [← String.length_utf8EncodeChar, utf8EncodeChar_of_lt h]
  rfl

theorem asciiByte_eq_iff {c d : Char} (hc : c.toNat < 128) (hd : d.toNat < 128) :
    asciiByte c = asciiByte d ↔ c = d := by
  constructor
  · intro h
    have hnat := congrArg UInt8.toNat h
    simp only [asciiByte, UInt8.toNat_ofNat'] at hnat
    exact Char.toNat_inj.1 (by omega)
  · rintro rfl
    rfl

theorem ne_asciiByte {b : UInt8} (hb : 128 ≤ b.toNat) {c : Char} (hc : c.toNat < 128) : b ≠ asciiByte c := by
  rintro rfl
  simp only [asciiByte, UInt8.toNat_ofNat'] at hb
  omega

theorem le_of_mem_tail_utf8EncodeChar (c : Char) : ∀ b ∈ (String.utf8EncodeChar c).tail, 128 ≤ b.toNat := by
  intro b hb
  by_cases hc : c.toNat < 128
  · simp [utf8EncodeChar_of_lt hc] at hb
  · exact le_of_mem_utf8EncodeChar (Nat.le_of_not_lt hc) b (List.mem_of_mem_tail hb)

theorem drop_utf8_cons (c : Char) (rest : List Char) :
    (utf8 (c :: rest)).drop 1 = (String.utf8EncodeChar c).tail ++ utf8 rest := by
  have hpos : 0 < (String.utf8EncodeChar c).length := by
    rw [String.length_utf8EncodeChar]
    exact c.utf8Size_pos
  rw [utf8_cons, List.drop_append_of_le_length hpos, List.drop_one]

theorem head?_utf8 {c : Char} (hc : c.toNat < 128) (text : List Char) :
    (utf8 text).head? = some (asciiByte c) ↔ text.head? = some c := by
  cases text with
  | nil => simp
  | cons d rest =>
    by_cases hd : d.toNat < 128
    · rw [utf8_cons_of_lt hd, List.head?_cons, List.head?_cons, Option.some_inj, Option.some_inj]
      exact asciiByte_eq_iff hd hc
    · rw [List.head?_cons, Option.some_inj]
      constructor
      · intro hhead
        obtain ⟨b, bytes, hbytes⟩ := List.exists_cons_of_ne_nil (String.utf8EncodeChar_ne_nil (c := d))
        rw [utf8_cons, hbytes, List.cons_append, List.head?_cons, Option.some_inj] at hhead
        have hmem : asciiByte c ∈ String.utf8EncodeChar d := by simp [hbytes, hhead]
        exact absurd rfl (ne_asciiByte (le_of_mem_utf8EncodeChar (Nat.le_of_not_lt hd) _ hmem) hc)
      · rintro rfl
        exact absurd hc hd

/-- A reader of bytes that passes every byte of a longer character; `add` moves the end that it finds. -/
structure PassesLong {α : Type} (read : List UInt8 → Option α) (add : Nat → α → α) : Prop where
  add_zero : ∀ a, add 0 a = a
  add_add : ∀ m n a, add m (add n a) = add (n + m) a
  step : ∀ b rest, 128 ≤ b.toNat → read (b :: rest) = (read rest).map (add 1)

namespace PassesLong

variable {α : Type} {read : List UInt8 → Option α} {add : Nat → α → α} (h : PassesLong read add)
include h

theorem append {bytes : List UInt8} (hbytes : ∀ b ∈ bytes, 128 ≤ b.toNat) (rest : List UInt8) :
    read (bytes ++ rest) = (read rest).map (add bytes.length) := by
  induction bytes with
  | nil =>
    rw [List.nil_append]
    cases read rest <;> simp [h.add_zero]
  | cons b bytes ih =>
    obtain ⟨hb, hbytes⟩ := List.forall_mem_cons.1 hbytes
    rw [List.cons_append, h.step b _ hb, ih hbytes, Option.map_map]
    congr 1
    funext a
    exact h.add_add 1 bytes.length a

theorem char {c : Char} {rest : List Char}
    (hplain : c.toNat < 128 → read (asciiByte c :: utf8 rest) = (read (utf8 rest)).map (add 1)) :
    read (utf8 (c :: rest)) = (read (utf8 rest)).map (add c.utf8Size) := by
  by_cases hc : c.toNat < 128
  · rw [utf8_cons_of_lt hc, utf8Size_of_lt hc]
    exact hplain hc
  · rw [utf8_cons, h.append (le_of_mem_utf8EncodeChar (Nat.le_of_not_lt hc)), String.length_utf8EncodeChar]

theorem escaped (c : Char) (rest : List Char) :
    (read ((utf8 (c :: rest)).drop 1)).map (add 2) = (read (utf8 rest)).map (add (1 + c.utf8Size)) := by
  have hpos := c.utf8Size_pos
  rw [drop_utf8_cons, h.append (le_of_mem_tail_utf8EncodeChar c), Option.map_map]
  congr 1
  funext a
  rw [Function.comp_apply, h.add_add, List.length_tail, String.length_utf8EncodeChar]
  congr 1
  omega

end PassesLong

namespace Lexeme

def stringBytes (quote : Char) (bytes : List UInt8) : Option Nat :=
  match bytes with
  | [] => none
  | b :: rest =>
    if b = asciiByte '\\' then
      if rest.head? = some (asciiByte '\r') ∧ rest.tail.head? = some (asciiByte '\n') then
        (stringBytes quote (rest.drop 2)).map (· + 3)
      else (stringBytes quote (rest.drop 1)).map (· + 2)
    else if b = asciiByte '\n' ∨ b = asciiByte '\r' then none
    else if b = asciiByte quote then some 1
    else (stringBytes quote rest).map (· + 1)
termination_by bytes.length
decreasing_by all_goals simp only [List.length_cons, List.length_drop]; omega

def chunkBytes (bytes : List UInt8) : Option (Nat × ChunkEnd) :=
  match bytes with
  | [] => none
  | b :: rest =>
    if b = asciiByte '`' then some (1, .backquote)
    else if b = asciiByte '\\' then (chunkBytes (rest.drop 1)).map fun (n, e) => (n + 2, e)
    else if b = asciiByte '$' ∧ rest.head? = some (asciiByte '{') then some (2, .substitution)
    else (chunkBytes rest).map fun (n, e) => (n + 1, e)
termination_by bytes.length
decreasing_by all_goals simp only [List.length_cons, List.length_drop]; omega

def regexBytes (inClass : Bool) (bytes : List UInt8) : Option Nat :=
  match bytes with
  | [] => none
  | b :: rest =>
    if b = asciiByte '\n' ∨ b = asciiByte '\r' then none
    else if b = asciiByte '\\' then (regexBytes inClass (rest.drop 1)).map (· + 2)
    else if b = asciiByte '[' then (regexBytes true rest).map (· + 1)
    else if b = asciiByte ']' then (regexBytes false rest).map (· + 1)
    else if b = asciiByte '/' ∧ inClass = false then some 1
    else (regexBytes inClass rest).map (· + 1)
termination_by bytes.length
decreasing_by all_goals simp only [List.length_cons, List.length_drop]; omega

theorem byteLength_take_append (taken rest : List Char) (n : Nat) :
    byteLength ((taken ++ rest).take (n + taken.length)) = byteLength (rest.take n) + byteLength taken := by
  rw [Nat.add_comm n, List.take_length_add_append, byteLength_append, Nat.add_comm]

theorem map_byteLength_take (taken rest : List Char) (length : Option Nat) :
    (length.map fun n => byteLength (rest.take n)).map (· + byteLength taken) =
      (length.map (· + taken.length)).map fun n => byteLength ((taken ++ rest).take n) := by
  rw [Option.map_map, Option.map_map]
  congr 1
  funext n
  exact (byteLength_take_append taken rest n).symm

theorem map_byteLength_take_end (taken rest : List Char) (length : Option (Nat × ChunkEnd)) :
    (length.map fun (n, e) => (byteLength (rest.take n), e)).map (fun (n, e) => (n + byteLength taken, e)) =
      (length.map fun (n, e) => (n + taken.length, e)).map fun (n, e) =>
        (byteLength ((taken ++ rest).take n), e) := by
  rw [Option.map_map, Option.map_map]
  congr 1
  funext ⟨n, e⟩
  simp only [Function.comp_apply, byteLength_take_append]

theorem passesLong_stringBytes {quote : Char} (hquote : quote.toNat < 128) :
    PassesLong (stringBytes quote) (fun k n => n + k) where
  add_zero _ := rfl
  add_add _ _ _ := Nat.add_assoc ..
  step b rest hb := by
    rw [stringBytes, if_neg (ne_asciiByte hb (by decide)), if_neg, if_neg (ne_asciiByte hb hquote)]
    simp [ne_asciiByte hb]

theorem stringBytes_utf8 {quote : Char} (hquote : quote = '"' ∨ quote = '\'') (text : List Char) :
    stringBytes quote (utf8 text) = (stringLength quote text).map fun n => byteLength (text.take n) := by
  have hlt : quote.toNat < 128 := by rcases hquote with rfl | rfl <;> decide
  have hpasses := passesLong_stringBytes hlt
  fun_induction stringLength quote text with
  | case1 => rw [utf8_nil, stringBytes]; rfl
  | case2 rest ih =>
    rw [utf8_cons_of_lt (by decide), utf8_cons_of_lt (by decide), utf8_cons_of_lt (by decide), stringBytes,
      if_pos rfl, if_pos ⟨rfl, rfl⟩]
    change (stringBytes quote (utf8 rest)).map _ = _
    rw [ih]
    exact map_byteLength_take ['\\', '\r', '\n'] rest _
  | case3 c rest hnot ih =>
    rw [utf8_cons_of_lt (by decide), stringBytes, if_pos rfl, if_neg, hpasses.escaped, ih]
    · exact map_byteLength_take ['\\', c] rest _
    · rintro ⟨hreturn, hfeed⟩
      obtain rfl : c = '\r' := by simpa using (head?_utf8 (by decide) (c :: rest)).1 hreturn
      rw [utf8_cons_of_lt (by decide), List.tail_cons, head?_utf8 (by decide)] at hfeed
      obtain ⟨tail, rfl⟩ := List.head?_eq_some_iff.1 hfeed
      exact hnot tail rfl rfl
  | case4 c rest _ _ hline =>
    have hline : c = '\n' ∨ c = '\r' := by simpa [isNewline] using hline
    have hc : c.toNat < 128 := by rcases hline with rfl | rfl <;> decide
    rw [utf8_cons_of_lt hc, stringBytes]
    rcases hline with rfl | rfl <;> simp [asciiByte_eq_iff]
  | case5 rest _ _ hline =>
    rw [utf8_cons_of_lt hlt, stringBytes]
    rcases hquote with rfl | rfl <;> simp [asciiByte_eq_iff, utf8Size_of_lt]
  | case6 c rest _ hescape hline hc ih =>
    by_cases hslash : c = '\\'
    · cases rest with
      | nil =>
        rw [hslash, utf8_cons_of_lt (by decide), stringBytes, if_pos rfl]
        simp [stringBytes, stringLength]
      | cons d rest => exact (hescape d rest hslash rfl).elim
    · rw [hpasses.char, ih]
      · exact map_byteLength_take [c] rest _
      · intro hlow
        rw [stringBytes, if_neg, if_neg, if_neg]
        · rwa [asciiByte_eq_iff hlow hlt]
        · rw [asciiByte_eq_iff hlow (by decide), asciiByte_eq_iff hlow (by decide)]
          simpa [isNewline] using hline
        · rwa [asciiByte_eq_iff hlow (by decide)]

theorem passesLong_chunkBytes : PassesLong chunkBytes (fun k (n, e) => (n + k, e)) where
  add_zero _ := rfl
  add_add m n := fun (k, e) => by simp only [Nat.add_assoc]
  step b rest hb := by
    rw [chunkBytes, if_neg (ne_asciiByte hb (by decide)), if_neg (ne_asciiByte hb (by decide)), if_neg]
    simp [ne_asciiByte hb]

theorem chunkBytes_utf8 (text : List Char) :
    chunkBytes (utf8 text) = (chunkLength text).map fun (n, e) => (byteLength (text.take n), e) := by
  have hpasses := passesLong_chunkBytes
  fun_induction chunkLength text with
  | case1 => rw [utf8_nil, chunkBytes]; rfl
  | case2 rest =>
    rw [utf8_cons_of_lt (by decide), chunkBytes, if_pos rfl]
    rfl
  | case3 c rest ih =>
    rw [utf8_cons_of_lt (by decide), chunkBytes, if_neg (by decide), if_pos rfl, hpasses.escaped, ih]
    exact map_byteLength_take_end ['\\', c] rest _
  | case4 rest =>
    rw [utf8_cons_of_lt (by decide), utf8_cons_of_lt (by decide), chunkBytes, if_neg (by decide),
      if_neg (by decide), if_pos ⟨rfl, rfl⟩]
    rfl
  | case5 c rest hquote hescape hopen ih =>
    by_cases hslash : c = '\\'
    · cases rest with
      | nil =>
        rw [hslash, utf8_cons_of_lt (by decide), chunkBytes, if_neg (by decide), if_pos rfl]
        simp [chunkBytes, chunkLength]
      | cons d rest => exact (hescape d rest hslash rfl).elim
    · rw [hpasses.char, ih]
      · exact map_byteLength_take_end [c] rest _
      · intro hlow
        rw [chunkBytes, if_neg, if_neg, if_neg]
        · rw [asciiByte_eq_iff hlow (by decide), head?_utf8 (by decide)]
          rintro ⟨rfl, hbrace⟩
          obtain ⟨tail, rfl⟩ := List.head?_eq_some_iff.1 hbrace
          exact hopen tail rfl rfl
        · rwa [asciiByte_eq_iff hlow (by decide)]
        · rw [asciiByte_eq_iff hlow (by decide)]
          exact hquote

theorem passesLong_regexBytes (inClass : Bool) : PassesLong (regexBytes inClass) (fun k n => n + k) where
  add_zero _ := rfl
  add_add _ _ _ := Nat.add_assoc ..
  step b rest hb := by
    rw [regexBytes, if_neg, if_neg (ne_asciiByte hb (by decide)), if_neg (ne_asciiByte hb (by decide)),
      if_neg (ne_asciiByte hb (by decide)), if_neg]
    all_goals simp [ne_asciiByte hb]

theorem regexBytes_utf8 (inClass : Bool) (text : List Char) :
    regexBytes inClass (utf8 text) = (regexLength inClass text).map fun n => byteLength (text.take n) := by
  fun_induction regexLength inClass text with
  | case1 => rw [utf8_nil, regexBytes]; rfl
  | case2 inClass c rest ih =>
    rw [utf8_cons_of_lt (by decide), regexBytes, if_neg (by decide), if_pos rfl,
      (passesLong_regexBytes inClass).escaped, ih]
    exact map_byteLength_take ['\\', c] rest _
  | case3 inClass c rest _ hline =>
    have hline : c = '\n' ∨ c = '\r' := by simpa [isNewline] using hline
    have hc : c.toNat < 128 := by rcases hline with rfl | rfl <;> decide
    rw [utf8_cons_of_lt hc, regexBytes, if_pos]
    · rfl
    · rwa [asciiByte_eq_iff hc (by decide), asciiByte_eq_iff hc (by decide)]
  | case4 inClass rest _ _ ih =>
    rw [utf8_cons_of_lt (by decide), regexBytes, if_neg (by decide), if_neg (by decide), if_pos rfl, ih]
    exact map_byteLength_take ['['] rest _
  | case5 inClass rest _ _ _ ih =>
    rw [utf8_cons_of_lt (by decide), regexBytes, if_neg (by decide), if_neg (by decide), if_neg (by decide),
      if_pos rfl, ih]
    exact map_byteLength_take [']'] rest _
  | case6 inClass c rest _ _ _ _ hslash =>
    obtain ⟨rfl, rfl⟩ : c = '/' ∧ inClass = false := by simpa using hslash
    rw [utf8_cons_of_lt (by decide), regexBytes, if_neg (by decide), if_neg (by decide), if_neg (by decide),
      if_neg (by decide), if_pos ⟨rfl, rfl⟩]
    rfl
  | case7 inClass c rest hescape hline hopen hclose hslash ih =>
    by_cases hescaped : c = '\\'
    · cases rest with
      | nil =>
        rw [hescaped, utf8_cons_of_lt (by decide), regexBytes, if_neg (by decide), if_pos rfl]
        simp [regexBytes, regexLength]
      | cons d rest => exact (hescape d rest hescaped rfl).elim
    · rw [(passesLong_regexBytes inClass).char, ih]
      · exact map_byteLength_take [c] rest _
      · intro hlow
        have hother (d : Char) (hd : d.toNat < 128) (hcd : c ≠ d) : asciiByte c ≠ asciiByte d := by
          rwa [Ne, asciiByte_eq_iff hlow hd]
        rw [regexBytes, if_neg, if_neg (hother _ (by decide) hescaped), if_neg (hother _ (by decide) hopen),
          if_neg (hother _ (by decide) hclose), if_neg]
        · rw [asciiByte_eq_iff hlow (by decide)]
          simpa using hslash
        · rw [asciiByte_eq_iff hlow (by decide), asciiByte_eq_iff hlow (by decide)]
          simpa [isNewline] using hline

theorem takeWhile_utf8 {stops : List Char} (hstops : ∀ c ∈ stops, c.toNat < 128) (text : List Char) :
    (utf8 text).takeWhile (· ∉ stops.map asciiByte) = utf8 (text.takeWhile (· ∉ stops)) := by
  induction text with
  | nil => rfl
  | cons c rest ih =>
    by_cases hc : c ∈ stops
    · have hmem : asciiByte c ∈ stops.map asciiByte := List.mem_map_of_mem hc
      rw [utf8_cons_of_lt (hstops c hc), List.takeWhile_cons_of_neg (by simpa using hmem),
        List.takeWhile_cons_of_neg (by simpa using hc), utf8_nil]
    · have hpass : ∀ b ∈ String.utf8EncodeChar c, decide (b ∉ stops.map asciiByte) = true := by
        intro b hb
        rw [decide_eq_true_iff]
        intro hmem
        obtain ⟨d, hd, rfl⟩ := List.mem_map.1 hmem
        by_cases hlow : c.toNat < 128
        · rw [utf8EncodeChar_of_lt hlow, List.mem_singleton, asciiByte_eq_iff (hstops d hd) hlow] at hb
          exact hc (hb ▸ hd)
        · exact ne_asciiByte (le_of_mem_utf8EncodeChar (Nat.le_of_not_lt hlow) _ hb) (hstops d hd) rfl
      rw [utf8_cons, List.takeWhile_append_of_pos hpass, ih, List.takeWhile_cons_of_pos (by simpa using hc),
        utf8_cons]

structure Resynchronized (text : List Char) : Prop where
  string : ∀ quote, quote = '"' ∨ quote = '\'' →
    stringBytes quote (utf8 text) = (stringLength quote text).map fun n => byteLength (text.take n)
  chunk : chunkBytes (utf8 text) = (chunkLength text).map fun (n, e) => (byteLength (text.take n), e)
  regex : ∀ inClass,
    regexBytes inClass (utf8 text) = (regexLength inClass text).map fun n => byteLength (text.take n)
  search : ∀ stops : List Char, (∀ c ∈ stops, c.toNat < 128) →
    (utf8 text).takeWhile (· ∉ stops.map asciiByte) = utf8 (text.takeWhile (· ∉ stops))

theorem resynchronized (text : List Char) : Resynchronized text where
  string _ hquote := stringBytes_utf8 hquote text
  chunk := chunkBytes_utf8 text
  regex inClass := regexBytes_utf8 inClass text
  search _ hstops := takeWhile_utf8 hstops text

end Lexeme

end ModuleLowering
