import ModuleLowering.Proofs.Role.Walks

namespace ModuleLowering

def Token.relocate (g : Nat → Nat) (t : Token) : Token := { t with start := g t.start }

theorem map_relocate_modify {g : Nat → Nat} (tokens : Array Token) (i : Nat) {f : Token → Token}
    (hf : ∀ t, f (t.relocate g) = (f t).relocate g) :
    (tokens.modify i f).map (Token.relocate g) = (tokens.map (Token.relocate g)).modify i f := by
  apply Array.ext_getElem?
  intro k
  simp only [Array.getElem?_map, Array.getElem?_modify]
  split
  · cases tokens[k]? <;> simp [hf]
  · rfl

namespace Stream

def relocate (g : Nat → Nat) (s : Stream) : Stream := ⟨s.tokens.map (Token.relocate g), g s.stop⟩

variable (g : Nat → Nat) (s : Stream)

@[simp] theorem size_relocate : (s.relocate g).tokens.size = s.tokens.size := Array.size_map

@[simp] theorem getElem?_relocate (i : Nat) : (s.relocate g).tokens[i]? = s.tokens[i]?.map (Token.relocate g) :=
  Array.getElem?_map

@[simp] theorem before?_relocate (i : Nat) : (s.relocate g).before? i = (s.before? i).map (Token.relocate g) := by
  unfold before?
  split
  · rfl
  · exact s.getElem?_relocate g (i - 1)

theorem congruent_relocate : Congruent (s.relocate g) s where
  size_eq := s.size_relocate g
  kind?_eq i := by
    rw [kind?, kind?, getElem?_relocate, Option.map_map]
    rfl
  closer?_eq i := by
    rw [closer?, closer?, getElem?_relocate, Option.bind_map]
    rfl

@[simp] theorem kind?_relocate (i : Nat) : (s.relocate g).kind? i = s.kind? i := (s.congruent_relocate g).kind?_eq i

@[simp] theorem isAt_relocate (i : Nat) (kind : Kind) : (s.relocate g).isAt i kind = s.isAt i kind :=
  (s.congruent_relocate g).isAt_eq i kind

@[simp] theorem kind_before?_relocate (i : Nat) :
    ((s.relocate g).before? i).map Token.kind = (s.before? i).map Token.kind := by
  rw [before?_relocate, Option.map_map]
  rfl

@[simp] theorem any_before?_relocate (i : Nat) {p : Token → Bool} (hp : ∀ t, p (t.relocate g) = p t) :
    ((s.relocate g).before? i).any p = (s.before? i).any p := by
  rw [before?_relocate, Option.any_map]
  exact congrArg ((s.before? i).any ·) (funext hp)

@[simp] theorem beginsLineAfterExpression_relocate (i : Nat) :
    (s.relocate g).beginsLineAfterExpression i = s.beginsLineAfterExpression i := by
  rw [beginsLineAfterExpression, beginsLineAfterExpression, any_before?_relocate g s i fun _ => rfl,
    getElem?_relocate, Option.any_map]
  rfl

theorem beginsProperty_relocate (i : Nat) : (s.relocate g).beginsProperty i = s.beginsProperty i := by
  induction i with
  | zero => rfl
  | succ i ih =>
    rw [beginsProperty, beginsProperty, getElem?_relocate, ih]
    cases s.tokens[i]? <;> rfl

theorem beginsMember_relocate (i : Nat) : (s.relocate g).beginsMember i = s.beginsMember i := by
  induction i with
  | zero => rfl
  | succ i ih =>
    rw [beginsMember, beginsMember, getElem?_relocate, ih, beginsLineAfterExpression_relocate]
    cases s.tokens[i]? <;> rfl

theorem beginsStatement_relocate (i : Nat) : (s.relocate g).beginsStatement i = s.beginsStatement i := by
  rw [beginsStatement, beginsStatement, before?_relocate, beginsLineAfterExpression_relocate]
  cases s.before? i <;> rfl

theorem namesProperty_relocate (i : Nat) : (s.relocate g).namesProperty i = s.namesProperty i := by
  rw [namesProperty, namesProperty, kind?_relocate]

theorem propertyRole_relocate (i : Nat) (t : Token) :
    (s.relocate g).propertyRole i (t.relocate g) = s.propertyRole i t := by
  rw [propertyRole, propertyRole, namesProperty_relocate, kind?_relocate]
  rfl

theorem memberRole_relocate (i : Nat) (t : Token) :
    (s.relocate g).memberRole i (t.relocate g) = s.memberRole i t := by
  rw [memberRole, memberRole, namesProperty_relocate, isAt_relocate, isAt_relocate]
  rfl

theorem tagRole_relocate (i : Nat) (t : Token) : (s.relocate g).tagRole i (t.relocate g) = s.tagRole i t := by
  rw [tagRole, tagRole, any_before?_relocate g s i fun _ => rfl, isAt_relocate, isAt_relocate]
  rfl

theorem followsDeclarator_relocate (i : Nat) : (s.relocate g).followsDeclarator i = s.followsDeclarator i := by
  rw [followsDeclarator, followsDeclarator, kind_before?_relocate, any_before?_relocate g s (i - 1) fun _ => rfl]

theorem followsJump_relocate (i : Nat) (t : Token) :
    (s.relocate g).followsJump i (t.relocate g) = s.followsJump i t := by
  rw [followsJump, followsJump, any_before?_relocate g s i fun _ => rfl]
  rfl

theorem roleAt_relocate (i : Nat) (t : Token) : (s.relocate g).roleAt i (t.relocate g) = s.roleAt i t := by
  rw [roleAt, roleAt, any_before?_relocate g s i fun _ => rfl, tagRole_relocate, followsDeclarator_relocate,
    followsJump_relocate, beginsProperty_relocate, propertyRole_relocate, beginsMember_relocate, memberRole_relocate,
    isAt_relocate, beginsStatement_relocate]
  rfl

theorem relocate_update (i : Nat) {f : Token → Token} (hf : ∀ t, f (t.relocate g) = (f t).relocate g) :
    (s.update i f).relocate g = (s.relocate g).update i f :=
  congrArg (Stream.mk · (g s.stop)) (map_relocate_modify s.tokens i hf)

theorem relocate_setRole (i : Nat) (role : Role) : (s.setRole i role).relocate g = (s.relocate g).setRole i role :=
  s.relocate_update g i fun _ => rfl

theorem relocate_assignRole (i : Nat) : (s.assignRole i).relocate g = (s.relocate g).assignRole i := by
  unfold assignRole
  rw [getElem?_relocate]
  cases s.tokens[i]? with
  | none => rfl
  | some t =>
    dsimp only [Option.map_some]
    rw [roleAt_relocate]
    split
    · rw [relocate_setRole, if_pos (by assumption)]
    · rw [if_neg (by assumption)]

theorem relocate_foldl {α : Type} {f : Stream → α → Stream} (hf : ∀ s x, (f s x).relocate g = f (s.relocate g) x)
    (xs : List α) : (xs.foldl f s).relocate g = xs.foldl f (s.relocate g) := by
  induction xs generalizing s with
  | nil => rfl
  | cons x xs ih => rw [List.foldl_cons, List.foldl_cons, ih, hf]

theorem relocate_assignRoles : s.assignRoles.relocate g = (s.relocate g).assignRoles := by
  rw [assignRoles, assignRoles, size_relocate, relocate_foldl g s fun s i => s.relocate_assignRole g i]

theorem endsInitializer_relocate (j : Nat) (t : Token) :
    (s.relocate g).endsInitializer j (t.relocate g) = s.endsInitializer j t := by
  rw [endsInitializer, endsInitializer, any_before?_relocate g s j fun _ => rfl]
  rfl

theorem initializerEnd_relocate (j : Nat) : (s.relocate g).initializerEnd j = s.initializerEnd j := by
  have hget {j : Nat} {t : Token} (ht : s.tokens[j]? = some t) :
      (s.relocate g).tokens[j]? = some (t.relocate g) := by rw [getElem?_relocate, ht, Option.map_some]
  fun_induction initializerEnd s j with
  | case1 j hnone =>
    rw [initializerEnd]
    split
    · rfl
    · rename_i hsome
      rw [getElem?_relocate, hnone] at hsome
      cases hsome
  | case2 j t ht hends =>
    rw [initializerEnd_of_getElem? (hget ht), if_pos (by rw [endsInitializer_relocate, hends])]
  | case3 j t ht hends ih =>
    rw [initializerEnd_of_getElem? (hget ht), if_neg (by rwa [endsInitializer_relocate]),
      (s.congruent_relocate g).skip_eq, ih]

theorem skipInitializer_relocate (i : Nat) : (s.relocate g).skipInitializer i = s.skipInitializer i := by
  rw [skipInitializer, skipInitializer, isAt_relocate, initializerEnd_relocate]

theorem declaratorMarks_relocate (i : Nat) : (s.relocate g).declaratorMarks i = s.declaratorMarks i := by
  have hwalks := s.congruent_relocate g
  have hstop (i : Nat) : (s.relocate g).skipInitializer ((s.relocate g).afterTarget i (s.relocate g).tokens.size) =
      s.skipInitializer (s.afterTarget i s.tokens.size) := by
    rw [size_relocate, hwalks.afterTarget_eq, skipInitializer_relocate]
  fun_induction declaratorMarks s i with
  | case1 i stop hcomma ih =>
    rw [declaratorMarks, hstop, dif_pos (by rwa [isAt_relocate]), ih, size_relocate, hwalks.targetMarks_eq]
  | case2 i stop hcomma =>
    rw [declaratorMarks, hstop, dif_neg (by rwa [isAt_relocate]), size_relocate, hwalks.targetMarks_eq]

theorem isParameterList_relocate (i j : Nat) (t : Token) :
    (s.relocate g).isParameterList i j (t.relocate g) = s.isParameterList i j t := by
  rw [isParameterList, isParameterList, isAt_relocate, kind_before?_relocate, before?_relocate, getElem?_relocate]
  cases s.before? i <;> cases s.tokens[j + 1]? <;> rfl

theorem siteMarks_relocate (i : Nat) : (s.relocate g).siteMarks i = s.siteMarks i := by
  have hwalks := s.congruent_relocate g
  rw [siteMarks, siteMarks, getElem?_relocate]
  cases s.tokens[i]? with
  | none => rfl
  | some t =>
    simp only [Option.map_some, isParameterList_relocate, hwalks.listMarks_eq, isAt_relocate, declaratorMarks_relocate]
    rfl

theorem relocate_enterPattern (i : Nat) : (s.enterPattern i).relocate g = (s.relocate g).enterPattern i := by
  refine s.relocate_update g i fun t => ?_
  change (if t.context = .object then _ else _) = _
  split <;> rfl

theorem relocate_setGroup (i : Nat) (region : Region) :
    (s.setGroup i region).relocate g = (s.relocate g).setGroup i region := s.relocate_update g i fun _ => rfl

theorem relocate_mark (m : Mark) : (s.mark m).relocate g = (s.relocate g).mark m := by
  cases m with
  | target i =>
    refine s.relocate_update g i fun t => ?_
    change (if t.role = some .reference || t.role = some .shorthand then _ else _) = _
    split <;> rfl
  | name i => exact s.relocate_setRole g i .declaration
  | pattern i j =>
    rw [mark, mark, relocate_foldl g _ (relocate_enterPattern g), (s.congruent_relocate g).members_eq,
      relocate_setGroup, relocate_setGroup]

theorem relocate_markSite (i : Nat) : (s.markSite i).relocate g = (s.relocate g).markSite i := by
  rw [markSite, markSite, siteMarks_relocate, relocate_foldl g s fun s m => s.relocate_mark g m]

theorem relocate_markSites : s.markSites.relocate g = (s.relocate g).markSites := by
  rw [markSites, markSites, size_relocate, relocate_foldl g s fun s i => s.relocate_markSite g i]

end Stream

end ModuleLowering
