import ModuleLowering.Json.Value

/-!
Typed parts of JSON values. A record is an object with known keys, or an array of the values in the
order of the keys.
-/

namespace ModuleLowering.Json.Value

def bool? : Value → Option Bool
  | .bool b => some b
  | _ => none

def text? : Value → Option String
  | .string value => value
  | _ => none

def natural? (bound : Nat) : Value → Option Nat
  | .number text =>
    if text.toList.all Char.isDigit then
      let n := text.toList.foldl (fun n c => 10 * n + (c.toNat - '0'.toNat)) 0
      if n < bound then some n else none
    else none
  | _ => none

def list? {α : Type} (read : Value → Option α) : Value → Option (List α)
  | .array items => items.mapM read
  | _ => none

def nullable? {α : Type} (read : Value → Option α) : Value → Option (Option α)
  | .null => some none
  | v => (read v).map some

/-- The only value under a key, or nothing if there is none; a repeated key is refused. -/
def field? (members : List (String × Value)) (name : String) : Option (Option Value) :=
  match members.filter (·.1 = name) with
  | [] => some none
  | [(_, v)] => some (some v)
  | _ => none

/-- The fields of a record. An array may leave out the last ones; with `closed` an object may have no
other keys. -/
def fields? (names : List String) (closed : Bool) : Value → Option (List (Option Value))
  | .array items =>
    if items.length ≤ names.length then
      some (items.map some ++ List.replicate (names.length - items.length) none)
    else none
  | .object members => do
    let members ← members.mapM fun (key, v) => key.map (·, v)
    guard (closed → ∀ m ∈ members, m.1 ∈ names)
    names.mapM (field? members)
  | _ => none

end ModuleLowering.Json.Value
