namespace ModuleLowering.Text

def splitOn (separator : Char) : List Char → List (List Char)
  | [] => [[]]
  | c :: cs =>
    if c = separator then [] :: splitOn separator cs
    else
      match splitOn separator cs with
      | [] => [[c]]
      | part :: parts => (c :: part) :: parts

@[simp] theorem splitOn_ne_nil (separator : Char) (cs : List Char) : splitOn separator cs ≠ [] := by
  cases cs with
  | nil => simp [splitOn]
  | cons c cs =>
    simp only [splitOn]
    split
    · simp
    · split <;> simp

theorem intercalate_splitOn (separator : Char) (cs : List Char) :
    [separator].intercalate (splitOn separator cs) = cs := by
  induction cs with
  | nil => simp [splitOn]
  | cons c cs ih =>
    simp only [splitOn]
    cases h : splitOn separator cs with
    | nil => exact absurd h (splitOn_ne_nil separator cs)
    | cons part parts =>
      rw [h] at ih
      split
      · simp [List.intercalate_cons_cons, *]
      · cases parts with
        | nil => simpa using ih
        | cons next parts => simpa [List.intercalate_cons_cons] using ih

theorem not_mem_of_mem_splitOn {separator : Char} {cs part : List Char}
    (h : part ∈ splitOn separator cs) : separator ∉ part := by
  induction cs generalizing part with
  | nil => simp [splitOn] at h; simp [h]
  | cons c cs ih =>
    simp only [splitOn] at h
    split at h
    · rcases List.mem_cons.mp h with rfl | h
      · simp
      · exact ih h
    · rename_i hc
      split at h
      · simp at h; simp [h, Ne.symm hc]
      · rename_i first parts hs
        rcases List.mem_cons.mp h with rfl | h
        · simp [Ne.symm hc, ih (hs ▸ List.mem_cons_self)]
        · exact ih (hs ▸ List.mem_cons_of_mem _ h)

theorem splitOn_of_not_mem {separator : Char} {cs : List Char} (h : separator ∉ cs) :
    splitOn separator cs = [cs] := by
  induction cs with
  | nil => rfl
  | cons c cs ih =>
    rw [List.mem_cons, not_or] at h
    rw [splitOn, if_neg (Ne.symm h.1), ih h.2]

theorem splitOn_append_cons (separator : Char) (xs ys : List Char) :
    splitOn separator (xs ++ separator :: ys) = splitOn separator xs ++ splitOn separator ys := by
  induction xs with
  | nil => simp [splitOn]
  | cons c xs ih =>
    rw [List.cons_append, splitOn, splitOn, ih]
    split
    · rfl
    · cases hparts : splitOn separator xs with
      | nil => exact absurd hparts (splitOn_ne_nil separator xs)
      | cons => rfl

def splitText (separator : Char) (s : String) : List String :=
  (splitOn separator s.toList).map String.ofList

end ModuleLowering.Text
