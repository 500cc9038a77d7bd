import ModuleLowering.Proofs.Scan.Brackets
import ModuleLowering.Proofs.Scan.Placement
import ModuleLowering.Role.Binding

namespace ModuleLowering

open Text

/-- A token without what roles and binding sites write. -/
def Token.outline (t : Token) : Token :=
  { t with
    role := none
    group := none
    context := if t.context = .pattern then .object else t.context }

@[simp] theorem Token.kind_outline (t : Token) : t.outline.kind = t.kind := rfl

theorem Token.isTopLevel_outline (t : Token) : t.outline.isTopLevel = t.isTopLevel := by
  unfold outline isTopLevel
  dsimp only
  split
  · rename_i h
    simp [h]
  · rfl

namespace Stream

def outline (s : Stream) : Stream := ⟨s.tokens.map Token.outline, s.stop⟩

theorem outline_update (s : Stream) (i : Nat) {f : Token → Token} (hf : ∀ t, (f t).outline = t.outline) :
    (s.update i f).outline = s.outline := by
  unfold outline update
  congr 1
  apply Array.ext_getElem?
  intro k
  rw [Array.getElem?_map, Array.getElem?_map, Array.getElem?_modify]
  split
  · cases s.tokens[k]? <;> simp [hf]
  · rfl

theorem outline_foldl {α : Type} {f : Stream → α → Stream} (hf : ∀ s x, (f s x).outline = s.outline)
    (xs : List α) (s : Stream) : (xs.foldl f s).outline = s.outline := by
  induction xs generalizing s with
  | nil => rfl
  | cons x xs ih => exact (ih (f s x)).trans (hf s x)

theorem outline_setRole (s : Stream) (i : Nat) (role : Role) : (s.setRole i role).outline = s.outline :=
  s.outline_update i fun _ => rfl

theorem outline_assignRole (s : Stream) (i : Nat) : (s.assignRole i).outline = s.outline := by
  unfold assignRole
  split
  · split
    · exact s.outline_setRole i _
    · rfl
  · rfl

theorem outline_assignRoles (s : Stream) : s.assignRoles.outline = s.outline := outline_foldl outline_assignRole _ s

theorem outline_enterPattern (s : Stream) (i : Nat) : (s.enterPattern i).outline = s.outline := by
  apply s.outline_update i
  intro t
  split
  · rename_i h
    simp [Token.outline, h]
  · rfl

theorem outline_mark (s : Stream) (m : Mark) : (s.mark m).outline = s.outline := by
  cases m with
  | target i =>
    apply s.outline_update i
    intro t
    split <;> rfl
  | name i => exact s.outline_setRole i _
  | pattern i j =>
    have hopener : (s.setGroup i .pattern).outline = s.outline := s.outline_update i fun _ => rfl
    have hcloser := (s.setGroup i .pattern).outline_update j (f := fun t => { t with group := some .pattern })
      fun _ => rfl
    exact (outline_foldl outline_enterPattern _ _).trans (hcloser.trans hopener)

theorem outline_markSite (s : Stream) (i : Nat) : (s.markSite i).outline = s.outline :=
  outline_foldl outline_mark _ _

theorem outline_of_scan {source : List Char} {s : Stream} (h : scan source = .ok s) :
    ∃ r, Stream.read source = .ok r ∧ s.outline = r.outline := by
  obtain ⟨r, hr, rfl⟩ := map_eq_ok_iff.1 h
  refine ⟨r, hr, ?_⟩
  exact (outline_foldl outline_markSite _ _).trans (outline_foldl outline_assignRole _ _)

end Stream

end ModuleLowering
