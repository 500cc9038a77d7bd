import ModuleLowering.Json.Token

/-!
JSON values. Objects keep their members in the order of the text, repeated keys included. Reading
goes from tokens to values and every value takes at least one token, so it ends.
-/

namespace ModuleLowering.Json

inductive Value
  | null
  | bool (value : Bool)
  | number (text : String)
  | string (value : Option String)
  | array (items : List Value)
  | object (members : List (Option String × Value))

abbrev Rest (tokens : List Token) := { rest : List Token // rest.length < tokens.length }

mutual

def readValue (tokens : List Token) : Option (Value × Rest tokens) :=
  match tokens with
  | .null :: rest => some (.null, ⟨rest, by simp⟩)
  | .bool b :: rest => some (.bool b, ⟨rest, by simp⟩)
  | .number text :: rest => some (.number text, ⟨rest, by simp⟩)
  | .string value :: rest => some (.string value, ⟨rest, by simp⟩)
  | .openArray :: .closeArray :: rest => some (.array [], ⟨rest, by simp only [List.length_cons]; omega⟩)
  | .openArray :: rest =>
    (readItems rest).map fun (items, after) =>
      (.array items, ⟨after, by have := after.2; simp only [List.length_cons]; omega⟩)
  | .openObject :: .closeObject :: rest => some (.object [], ⟨rest, by simp only [List.length_cons]; omega⟩)
  | .openObject :: rest =>
    (readMembers rest).map fun (members, after) =>
      (.object members, ⟨after, by have := after.2; simp only [List.length_cons]; omega⟩)
  | _ => none
termination_by 2 * tokens.length
decreasing_by all_goals simp only [List.length_cons]; omega

def readItems (tokens : List Token) : Option (List Value × Rest tokens) :=
  match readValue tokens with
  | some (item, ⟨.closeArray :: rest, h⟩) =>
    some ([item], ⟨rest, by simp only [List.length_cons] at h; omega⟩)
  | some (item, ⟨.comma :: rest, h⟩) =>
    (readItems rest).map fun (items, after) =>
      (item :: items, ⟨after, by have := after.2; simp only [List.length_cons] at h; omega⟩)
  | _ => none
termination_by 2 * tokens.length + 1
decreasing_by
  · omega
  · simp only [List.length_cons] at *; omega

def readMembers (tokens : List Token) : Option (List (Option String × Value) × Rest tokens) :=
  match tokens with
  | .string key :: .colon :: rest =>
    match readValue rest with
    | some (value, ⟨.closeObject :: rest, h⟩) =>
      some ([(key, value)], ⟨rest, by simp only [List.length_cons] at *; omega⟩)
    | some (value, ⟨.comma :: rest, h⟩) =>
      (readMembers rest).map fun (members, after) =>
        ((key, value) :: members, ⟨after, by have := after.2; simp only [List.length_cons] at *; omega⟩)
    | _ => none
  | _ => none
termination_by 2 * tokens.length + 1
decreasing_by all_goals simp only [List.length_cons] at *; omega

end

def Value.parse? (text : String) : Option Value := do
  let tokens ← tokens? text.toList
  match readValue tokens with
  | some (value, ⟨[], _⟩) => return value
  | _ => none

end ModuleLowering.Json
