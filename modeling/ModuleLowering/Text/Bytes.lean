/-!
Byte offsets into a text kept as a list of characters. Every character counts with the length of
its UTF-8 form. `takeBytes` and `dropBytes` cut a text after the last character that fits into a
number of bytes, so together they always give the text back.
-/

namespace ModuleLowering.Text

def byteLength : List Char → Nat
  | [] => 0
  | c :: cs => c.utf8Size + byteLength cs

@[simp] theorem byteLength_nil : byteLength [] = 0 := rfl

@[simp] theorem byteLength_cons (c : Char) (cs : List Char) :
    byteLength (c :: cs) = c.utf8Size + byteLength cs := rfl

@[simp] theorem byteLength_append (xs ys : List Char) :
    byteLength (xs ++ ys) = byteLength xs + byteLength ys := by
  induction xs with
  | nil => simp
  | cons c cs ih => simp [ih, Nat.add_assoc]

theorem length_le_byteLength (cs : List Char) : cs.length ≤ byteLength cs := by
  induction cs with
  | nil => simp
  | cons c cs ih => have := c.utf8Size_pos; simp only [List.length_cons, byteLength_cons]; omega

theorem utf8ByteSize_ofList (cs : List Char) : (String.ofList cs).utf8ByteSize = byteLength cs := by
  induction cs with
  | nil => simp
  | cons c cs ih =>
    rw [show c :: cs = [c] ++ cs from rfl, String.ofList_append, String.utf8ByteSize_append, ih,
      ← String.singleton_eq_ofList, String.utf8ByteSize_singleton, byteLength_append]
    simp

def takeBytes : Nat → List Char → List Char
  | _, [] => []
  | n, c :: cs => if c.utf8Size ≤ n then c :: takeBytes (n - c.utf8Size) cs else []

def dropBytes : Nat → List Char → List Char
  | _, [] => []
  | n, c :: cs => if c.utf8Size ≤ n then dropBytes (n - c.utf8Size) cs else c :: cs

@[simp] theorem takeBytes_append_dropBytes (n : Nat) (cs : List Char) :
    takeBytes n cs ++ dropBytes n cs = cs := by
  induction cs generalizing n with
  | nil => rfl
  | cons c cs ih => by_cases h : c.utf8Size ≤ n <;> simp [takeBytes, dropBytes, h, ih]

theorem takeBytes_byteLength_append (xs ys : List Char) :
    takeBytes (byteLength xs) (xs ++ ys) = xs := by
  induction xs with
  | nil =>
    cases ys with
    | nil => rfl
    | cons c cs =>
      have := c.utf8Size_pos
      have h : ¬ c.utf8Size ≤ 0 := by omega
      simp [takeBytes, h]
  | cons c cs ih => simp [takeBytes, ih]

theorem dropBytes_byteLength_append (xs ys : List Char) :
    dropBytes (byteLength xs) (xs ++ ys) = ys := by
  have h := takeBytes_append_dropBytes (byteLength xs) (xs ++ ys)
  rw [takeBytes_byteLength_append] at h
  exact List.append_cancel_left h

def IsBoundary (cs : List Char) (offset : Nat) : Prop :=
  byteLength (takeBytes offset cs) = offset

instance (cs : List Char) (offset : Nat) : Decidable (IsBoundary cs offset) :=
  inferInstanceAs (Decidable (_ = _))

theorem IsBoundary.le_byteLength {cs : List Char} {offset : Nat} (h : IsBoundary cs offset) :
    offset ≤ byteLength cs := by
  have := congrArg byteLength (takeBytes_append_dropBytes offset cs)
  rw [byteLength_append, show byteLength (takeBytes offset cs) = offset from h] at this
  omega

def slice? (cs : List Char) (start stop : Nat) : Option (List Char) :=
  if start ≤ stop ∧ IsBoundary cs start ∧ IsBoundary cs stop then
    some (takeBytes (stop - start) (dropBytes start cs))
  else none

def lineFeeds (cs : List Char) : String := String.ofList (cs.filter (· == '\n'))

end ModuleLowering.Text
