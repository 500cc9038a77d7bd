import Mathlib.Data.List.Basic

namespace ModuleLowering.Text

def codeUnits (c : Char) : List Nat :=
  if c.toNat < 0x10000 then [c.toNat]
  else [0xD800 + (c.toNat - 0x10000) / 0x400, 0xDC00 + (c.toNat - 0x10000) % 0x400]

theorem codeUnits_ne_nil (c : Char) : codeUnits c ≠ [] := by
  unfold codeUnits
  split <;> exact List.cons_ne_nil _ _

theorem toNat_lt_or_le (c : Char) : c.toNat < 0xD800 ∨ 0xE000 ≤ c.toNat ∧ c.toNat < 0x110000 := by
  rcases c.valid with h | h
  · exact .inl h
  · exact .inr ⟨h.1, h.2⟩

theorem codeUnits_append_inj {c d : Char} {us vs : List Nat} (h : codeUnits c ++ us = codeUnits d ++ vs) :
    c = d ∧ us = vs := by
  have hc := toNat_lt_or_le c
  have hd := toNat_lt_or_le d
  have hsame (heq : c.toNat = d.toNat) : c = d := Char.toNat_inj.1 heq
  unfold codeUnits at h
  split at h
  · split at h
    · obtain ⟨hunit, hrest⟩ := List.cons.inj h
      exact ⟨hsame hunit, hrest⟩
    · have hunit := (List.cons.inj h).1
      omega
  · split at h
    · have hunit := (List.cons.inj h).1
      omega
    · obtain ⟨hhigh, hrest⟩ := List.cons.inj h
      obtain ⟨hlow, hrest⟩ := List.cons.inj hrest
      exact ⟨hsame (by omega), hrest⟩

theorem flatMap_codeUnits_inj {xs ys : List Char} : xs.flatMap codeUnits = ys.flatMap codeUnits ↔ xs = ys := by
  refine ⟨fun h => ?_, congrArg _⟩
  induction xs generalizing ys with
  | nil =>
    cases ys with
    | nil => rfl
    | cons y ys => exact absurd (List.append_eq_nil_iff.1 h.symm).1 (codeUnits_ne_nil y)
  | cons x xs ih =>
    cases ys with
    | nil => exact absurd (List.append_eq_nil_iff.1 h).1 (codeUnits_ne_nil x)
    | cons y ys =>
      rw [List.flatMap_cons, List.flatMap_cons] at h
      obtain ⟨rfl, hrest⟩ := codeUnits_append_inj h
      rw [ih hrest]

end ModuleLowering.Text
