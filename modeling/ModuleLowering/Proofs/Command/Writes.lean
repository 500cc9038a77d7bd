import ModuleLowering.Command.Run
import ModuleLowering.Proofs.Command.Places

namespace ModuleLowering.Command.FileTree

structure Extends (t u : FileTree) : Prop where
  home : u.home = t.home
  folders : ∀ place, t.isFolder place → u.isFolder place

namespace Extends

variable {t u v : FileTree}

theorem refl (t : FileTree) : t.Extends t := ⟨rfl, fun _ h => h⟩

theorem trans (h : t.Extends u) (h' : u.Extends v) : t.Extends v :=
  ⟨h'.home.trans h.home, fun place hp => h'.folders place (h.folders place hp)⟩

theorem placeOf (h : t.Extends u) (path : String) : u.placeOf path = t.placeOf path := by
  simp only [FileTree.placeOf, placeFrom, h.home]

theorem go? (h : t.Extends u) {place found : Trail} {segments : List String}
    (hgo : t.go? place segments = some found) : u.go? place segments = some found := by
  induction segments generalizing place with
  | nil => exact hgo
  | cons segment segments ih =>
    simp only [FileTree.go?] at hgo ⊢
    split at hgo
    · cases hgo
    · rename_i hfolder
      rw [if_neg (by simpa using h.folders place (by simpa using hfolder))]
      split at hgo
      · rename_i hidle
        rw [if_pos hidle]
        exact ih hgo
      · rename_i hidle
        rw [if_neg hidle]
        split at hgo
        · rename_i hparent
          rw [if_pos hparent]
          exact ih hgo
        · rename_i hparent
          rw [if_neg hparent]
          exact ih hgo

theorem locate? (h : t.Extends u) {path : String} {place : Trail} (hlocate : t.locate? path = some place) :
    u.locate? path = some place := by
  unfold FileTree.locate? at hlocate ⊢
  split at hlocate
  · rename_i husable
    rw [if_pos husable]
    have horigin : u.origin path = t.origin path := by simp only [origin, h.home]
    rw [horigin]
    exact h.go? hlocate
  · cases hlocate

theorem addFolder (t : FileTree) (place : Trail) : t.Extends { t with folders := place :: t.folders } where
  home := rfl
  folders p hp := by
    rw [isFolder_iff] at hp ⊢
    exact hp.imp_right (Or.imp_left fun ⟨folder, hmem, h⟩ => ⟨folder, List.mem_cons_of_mem place hmem, h⟩)

theorem put (t : FileTree) (place : Trail) (contents : ByteArray) : t.Extends (t.put place contents) where
  home := rfl
  folders p hp := by
    rw [isFolder_iff] at hp ⊢
    refine hp.imp_right (Or.imp_right ?_)
    rintro ⟨⟨name, old⟩, hmem, h⟩
    by_cases hname : name = place
    · exact ⟨(place, contents), List.mem_cons_self, hname ▸ h⟩
    · exact ⟨(name, old), List.mem_cons_of_mem _ (List.mem_filter.2 ⟨hmem, by simpa using hname⟩), h⟩

end Extends

variable {t u : FileTree}

theorem makeFolders?_cases {place : Trail} {segments : List String} (h : t.makeFolders? place segments = some u) :
    t.Extends u ∧ u.files = t.files := by
  fun_induction makeFolders? t place segments with
  | case1 =>
    cases h
    exact ⟨.refl _, rfl⟩
  | case2 t place segment rest _ ih => exact ih h
  | case3 t place rest _ ih => exact ih h
  | case4 => cases h
  | case5 t place segment rest _ _ next _ ih =>
    obtain ⟨hextends, hfiles⟩ := ih h
    exact ⟨(Extends.addFolder t next).trans hextends, hfiles⟩

theorem makeFolder?_cases {path : String} (h : t.makeFolder? path = some u) : t.Extends u ∧ u.files = t.files := by
  unfold makeFolder? at h
  split at h
  · cases h
    exact ⟨.refl _, rfl⟩
  · split at h
    · exact makeFolders?_cases h
    · cases h

structure Wrote (t : FileTree) (w : Write) (u : FileTree) : Prop where
  grows : t.Extends u
  locate? : u.locate? w.target = some (t.placeOf w.target)
  file? : ∀ place, u.file? place = if place = t.placeOf w.target then some w.text.toUTF8 else t.file? place

theorem wrote_of_write {w : Write} (h : t.write w = .ok u) : t.Wrote w u := by
  unfold write at h
  dsimp only at h
  split at h
  · cases h
  · rename_i made hmade
    obtain ⟨hextends, hfiles⟩ := makeFolder?_cases hmade
    split at h
    · cases h
    · rename_i place hplace
      have hput := Extends.put made place w.text.toUTF8
      have heq : place = t.placeOf w.target := by rw [locate?_eq hplace, hextends.placeOf]
      split at h
      · cases h
      · cases h
        refine ⟨hextends.trans hput, by rw [hput.locate? hplace, heq], fun other => ?_⟩
        rw [file?_put, heq]
        simp only [FileTree.file?, hfiles]

def lastWrite? (t : FileTree) (ws : List Write) (place : Trail) : Option Write :=
  ws.reverse.find? fun w => t.placeOf w.target = place

theorem lastWrite?_cons (w : Write) (ws : List Write) (place : Trail) :
    t.lastWrite? (w :: ws) place =
      (t.lastWrite? ws place).or (if t.placeOf w.target = place then some w else none) := by
  rw [lastWrite?, List.reverse_cons, List.find?_append, List.find?_singleton]
  simp [lastWrite?]

theorem lastWrite?_eq_some_iff {ws : List Write} {place : Trail} {w : Write} :
    t.lastWrite? ws place = some w ↔ t.placeOf w.target = place ∧
      ∃ before later, ws = before ++ w :: later ∧ ∀ w' ∈ later, t.placeOf w'.target ≠ place := by
  simp only [lastWrite?, List.find?_eq_some_iff_append, decide_eq_true_eq, Bool.not_eq_true', decide_eq_false_iff_not]
  refine and_congr_right fun _ => ⟨?_, ?_⟩
  · rintro ⟨later, before, hws, hlater⟩
    refine ⟨before.reverse, later.reverse, ?_, fun w' hw' => hlater w' (List.mem_reverse.1 hw')⟩
    simpa using congrArg List.reverse hws
  · rintro ⟨before, later, rfl, hlater⟩
    exact ⟨later.reverse, before.reverse, by simp, fun w' hw' => hlater w' (List.mem_reverse.1 hw')⟩

theorem wrote_of_writes {ws : List Write} (h : ws.foldlM write t = .ok u) :
    t.Extends u ∧ (∀ w ∈ ws, u.locate? w.target = some (t.placeOf w.target)) ∧
      ∀ place, u.file? place = ((t.lastWrite? ws place).map (·.text.toUTF8)).or (t.file? place) := by
  induction ws generalizing t with
  | nil =>
    cases h
    exact ⟨.refl _, by simp, fun place => by simp [lastWrite?]⟩
  | cons w ws ih =>
    rw [List.foldlM_cons] at h
    cases hw : t.write w with
    | error e => simp [hw, bind, Except.bind] at h
    | ok made =>
      have hwrote := wrote_of_write hw
      rw [hw] at h
      obtain ⟨hextends, hlocate, hfile⟩ := ih h
      refine ⟨hwrote.grows.trans hextends, ?_, fun place => ?_⟩
      · intro w' hw'
        rcases List.mem_cons.1 hw' with rfl | hw'
        · exact hextends.locate? hwrote.locate?
        · rw [hlocate w' hw', hwrote.grows.placeOf]
      · have hlast : made.lastWrite? ws place = t.lastWrite? ws place := by
          simp only [lastWrite?, hwrote.grows.placeOf]
        rw [hfile, hlast, hwrote.file?, lastWrite?_cons]
        cases t.lastWrite? ws place with
        | some => rfl
        | none =>
          by_cases hplace : t.placeOf w.target = place
          · simp [hplace]
          · simp [hplace, Ne.symm hplace]

end ModuleLowering.Command.FileTree
