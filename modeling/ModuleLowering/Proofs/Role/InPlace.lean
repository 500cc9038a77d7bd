import ModuleLowering.Proofs.Role.Nesting
import ModuleLowering.Role.InPlace

namespace ModuleLowering

namespace Stream

structure Matched (r : Stream) : Prop where
  within : r.PairsWithin
  after : ∀ (i : Nat) (t : Token), r.tokens[i]? = some t → t.kind.isOpener → t.pair = r.closer? i
  nested : ∀ i j k l, r.closer? i = some j → r.closer? k = some l → i < k → k < j → l < j

theorem matched_of_read {source : List Char} {r : Stream} (h : Stream.read source = .ok r) : r.Matched where
  within := pairsWithin_of_read h
  after i t ht hk := by
    obtain ⟨j, hmates⟩ := (bracketed_of_read h).exists_mates ht hk
    obtain ⟨a, _, _, ha, _, _, _, _, _, hpair, _⟩ := hmates.brackets
    rw [ht] at ha
    cases ha
    rw [hmates.closer?, hpair]
  nested _ _ _ _ := closer?_lt (bracketed_of_read h)

theorem Matched.outline {r s : Stream} (hr : r.Matched) (ho : s.outline = r.outline) : s.Matched where
  within := hr.within.outline ho
  after i t ht hk := by
    obtain ⟨u, hu, hut⟩ := exists_of_outline ho ht
    obtain ⟨hkind, hpair, _⟩ := same_of_outline hut
    rw [← hpair, closer?_outline ho, hr.after i u hu (by rwa [hkind])]
  nested i j k l := by
    rw [closer?_outline ho, closer?_outline ho]
    exact hr.nested i j k l

theorem outline_setGroup (s : Stream) (i : Nat) (region : Region) : (s.setGroup i region).outline = s.outline :=
  s.outline_update i fun _ => rfl

theorem closer?_eq {s : Stream} {i : Nat} {t : Token} (ht : s.tokens[i]? = some t) : s.closer? i = t.closer? i := by
  rw [closer?, ht, Option.bind_some]

theorem isAt_eq {s : Stream} {i : Nat} {t : Token} (ht : s.tokens[i]? = some t) (kind : Kind) :
    s.isAt i kind = decide (t.kind = kind) := by
  simp [isAt, kind?, ht]

theorem exists_token {s : Stream} {i : Nat} (hi : i < s.tokens.size) : ∃ t, s.tokens[i]? = some t :=
  ⟨_, Array.getElem?_eq_getElem hi⟩

theorem beginsLineAfterExpression_eq {s : Stream} {i : Nat} {p t : Token} (ht : s.tokens[i]? = some t)
    (hp : s.before? i = some p) : s.beginsLineAfterExpression i = (t.lineBreak && p.endsExpression) := by
  rw [beginsLineAfterExpression, ht, hp]
  rfl

end Stream

namespace Stream.InPlace

theorem some_bind {α β : Type} (a : α) (f : α → Option β) : (some a >>= f) = f a := rfl

section

variable {s : Stream} {i : Nat}

theorem write_eq (hi : i < s.tokens.size) (f : Token → Token) : write s i f = some (s.update i f) := if_pos hi

theorem previous_eq (hi : i ≤ s.tokens.size) : previous s i = some (s.before? i) := by
  unfold previous before?
  split
  · rfl
  · rw [Array.getElem?_eq_getElem (by omega)]
    rfl

theorem beginsProperty_eq (hi : i ≤ s.tokens.size) : beginsProperty s i = some (s.beginsProperty i) := by
  induction i with
  | zero => rfl
  | succ i ih =>
    obtain ⟨t, ht⟩ := exists_token hi
    rw [beginsProperty, Stream.beginsProperty, ht, some_bind]
    dsimp only
    cases t.kind <;> first | rfl | exact ih (Nat.le_of_lt hi)

theorem beginsMember_eq (hi : i < s.tokens.size) : beginsMember s i = some (s.beginsMember i) := by
  induction i with
  | zero => rfl
  | succ i ih =>
    obtain ⟨t, ht⟩ := exists_token hi
    obtain ⟨p, hp⟩ := exists_token (Nat.lt_of_succ_lt hi)
    have hbefore : s.before? (i + 1) = some p := by rw [before?_succ, hp]
    rw [beginsMember, Stream.beginsMember, beginsLineAfterExpression_eq ht hbefore, ht, hp, some_bind, some_bind]
    dsimp only
    cases p.kind <;> first | rfl | exact ih (Nat.lt_of_succ_lt hi)

theorem beginsStatement_eq (hi : i < s.tokens.size) : beginsStatement s i = some (s.beginsStatement i) := by
  obtain ⟨t, ht⟩ := exists_token hi
  rw [beginsStatement, previous_eq (Nat.le_of_lt hi), Stream.beginsStatement, ht]
  simp only [some_bind]
  cases hp : s.before? i with
  | none => rfl
  | some p =>
    rw [beginsLineAfterExpression_eq ht hp]
    dsimp only
    cases p.kind <;> rfl

theorem followsDeclarator_eq (hi : i ≤ s.tokens.size) : followsDeclarator s i = some (s.followsDeclarator i) := by
  rw [followsDeclarator, Stream.followsDeclarator, previous_eq hi, previous_eq (Nat.le_trans (Nat.sub_le i 1) hi)]
  simp only [some_bind]
  generalize (s.before? i).map Token.kind = kind
  split <;> simp_all

theorem both_some (first second : Bool) : both first (some second) = some (first && second) := by
  cases first <;> rfl

theorem roleAt_eq {t : Token} (ht : s.tokens[i]? = some t) : roleAt s i = some (s.roleAt i t) := by
  have hi := lt_size_of_getElem? ht
  rw [roleAt, Stream.roleAt, ht, previous_eq (Nat.le_of_lt hi), followsDeclarator_eq (Nat.le_of_lt hi),
    beginsProperty_eq (Nat.le_of_lt hi), beginsMember_eq hi, beginsStatement_eq hi]
  simp only [some_bind, both_some]
  repeat' split
  all_goals rfl

theorem assign_eq (hi : i < s.tokens.size) : assign s i = some (s.assignRole i) := by
  obtain ⟨t, ht⟩ := exists_token hi
  rw [assign, assignRole, ht]
  simp only [some_bind]
  split
  · rw [roleAt_eq ht, some_bind, write_eq hi]
    rfl
  · rfl

end

section

variable {s : Stream} {i stop : Nat}

theorem skip_eq {t : Token} (ht : s.tokens[i]? = some t) : skip i t = s.skip i := by
  rw [skip, Stream.skip, closer?_eq ht]
  cases t.closer? i <;> rfl

theorem skipToComma_eq (hstop : stop ≤ s.tokens.size) : skipToComma s i stop = some (s.skipToComma i stop) := by
  fun_induction Stream.skipToComma s i stop with
  | case1 i hi hcomma =>
    obtain ⟨t, ht⟩ := exists_token (Nat.lt_of_lt_of_le hi hstop)
    rw [isAt_eq ht, decide_eq_true_eq] at hcomma
    rw [skipToComma, if_pos hi, ht, some_bind, if_pos hcomma]
    rfl
  | case2 i hi hcomma ih =>
    obtain ⟨t, ht⟩ := exists_token (Nat.lt_of_lt_of_le hi hstop)
    rw [isAt_eq ht, decide_eq_true_eq] at hcomma
    rw [skipToComma, if_pos hi, ht, some_bind, if_neg hcomma, skip_eq ht]
    exact ih
  | case3 i hi =>
    rw [skipToComma, if_neg hi]
    rfl

end

section

variable {r s : Stream} (hr : r.Matched) (ho : s.outline = r.outline)

theorem enter_eq {i : Nat} (hi : i < s.tokens.size) : enter s i = some (s.enterPattern i) := write_eq hi _

include hr ho

theorem enterAll_eq {i stop : Nat} (hstop : stop ≤ r.tokens.size) :
    enterAll s i stop = some ((r.members i stop).foldl enterPattern s) := by
  have hsize {u : Stream} (hu : u.outline = r.outline) {k : Nat} (hk : k < r.tokens.size) : k < u.tokens.size := by
    rwa [size_of_outline hu]
  fun_induction members r i stop generalizing s with
  | case1 i hi j hj ih =>
    have ho' := (s.outline_enterPattern i).trans ho
    have hlt := Nat.lt_of_lt_of_le hi hstop
    obtain ⟨t, ht⟩ := exists_token (hsize ho' hlt)
    have hclose : t.closer? i = some j := by rw [← closer?_eq ht, closer?_outline ho', hj]
    rw [enterAll, if_pos hi, enter_eq (hsize ho hlt), some_bind, ht, some_bind, hclose]
    dsimp only
    rw [enter_eq (hsize ho' (hr.within.lt_of_closer? hj)), some_bind, skip, hclose]
    exact ih ((outline_enterPattern _ j).trans ho')
  | case2 i hi hnone ih =>
    have ho' := (s.outline_enterPattern i).trans ho
    have hlt := Nat.lt_of_lt_of_le hi hstop
    obtain ⟨t, ht⟩ := exists_token (hsize ho' hlt)
    have hclose : t.closer? i = none := by rw [← closer?_eq ht, closer?_outline ho', hnone]
    rw [enterAll, if_pos hi, enter_eq (hsize ho hlt), some_bind, ht, some_bind, hclose]
    dsimp only
    rw [some_bind, skip, hclose]
    exact ih ho'
  | case3 i hi => rw [enterAll, if_neg hi]; rfl

theorem retag_eq {i j : Nat} (hi : i < r.tokens.size) (hj : j < r.tokens.size) :
    retag s i j = some (s.mark (.pattern i j)) := by
  have ho' : (s.setGroup i .pattern).outline = r.outline := (s.outline_setGroup i _).trans ho
  have ho'' : ((s.setGroup i .pattern).setGroup j .pattern).outline = r.outline :=
    (outline_setGroup _ j _).trans ho'
  rw [retag, write_eq (by rwa [size_of_outline ho]), some_bind]
  change (write (s.setGroup i .pattern) j _ >>= _) = _
  rw [write_eq (by rwa [size_of_outline ho']), some_bind]
  change enterAll ((s.setGroup i .pattern).setGroup j .pattern) (i + 1) j = _
  rw [enterAll_eq hr ho'' (Nat.le_of_lt hj), Stream.mark, (Congruent.of_outline ho).members_eq]

end

theorem next_eq {r s : Stream} (ho : s.outline = r.outline) {i stop : Nat} (hstop : stop ≤ r.tokens.size) :
    skipToComma s (r.afterTarget i stop) stop = some (r.skipToComma (r.afterTarget i stop) stop) := by
  rw [skipToComma_eq (by rwa [size_of_outline ho]), (Congruent.of_outline ho).skipToComma_eq]

theorem colonAt_eq {r s : Stream} (ho : s.outline = r.outline) {i stop : Nat} (hstop : stop ≤ r.tokens.size) :
    both (i < stop) (s.tokens[i]?.map (·.kind = .colon)) = some (decide (i < stop ∧ r.isAt i .colon)) := by
  by_cases hi : i < stop
  · obtain ⟨t, ht⟩ := exists_token (s := s) (by rw [size_of_outline ho]; exact Nat.lt_of_lt_of_le hi hstop)
    rw [ht, Option.map_some, both_some, ← isAt_outline ho, isAt_eq ht]
    simp
  · simp [both, hi]

theorem keyEnd_eq {r s : Stream} (hr : r.Matched) (ho : s.outline = r.outline) {i : Nat} {t : Token}
    (ht : s.tokens[i]? = some t) : keyEnd i t = r.afterKey i := by
  have hopens := (hr.outline ho).after i t ht
  rw [keyEnd, afterKey, Stream.skip, ← isAt_outline ho, isAt_eq ht, ← closer?_outline ho]
  generalize t.kind = kind at hopens
  cases kind with
  | openBracket =>
    rw [hopens rfl]
    cases s.closer? i <;> rfl
  | _ => rfl

theorem outline_marks {r s : Stream} (ho : s.outline = r.outline) (ms : List Mark) :
    (ms.foldl mark s).outline = r.outline := (outline_foldl outline_mark ms s).trans ho

mutual

theorem target_eq {r s : Stream} (hr : r.Matched) (ho : s.outline = r.outline) {n i stop : Nat}
    (hstop : stop ≤ r.tokens.size) (hn : 2 * (r.tokens.size - i) < n) :
    target n s i stop = some ((r.targetMarks i stop).foldl mark s, r.afterTarget i stop) := by
  obtain _ | n := n
  · cases hn
  by_cases hi : i < stop
  · have hlt := Nat.lt_of_lt_of_le hi hstop
    obtain ⟨t, ht⟩ := exists_token (s := s) (by rwa [size_of_outline ho])
    obtain ⟨u, hu, hut⟩ := exists_of_outline ho ht
    obtain ⟨hkind, hpair, _⟩ := same_of_outline hut
    have hk : r.kind? i = some t.kind := by rw [kind?, hu, Option.map_some, hkind]
    rw [target, targetMarks, afterTarget, if_pos hi, if_pos ⟨hi, hlt⟩, if_pos hi, hk, ht, some_bind]
    have hclose (hopens : t.kind.isOpener) : t.pair = r.closer? i := by
      rw [← hpair, hr.after i u hu (by rwa [hkind])]
    generalize t.kind = kind at hclose
    cases kind with
    | ellipsis => exact target_eq hr ho hstop (by omega)
    | identifier =>
      rw [write_eq (by rwa [size_of_outline ho])]
      rfl
    | openBrace =>
      rw [hclose rfl, Stream.skip]
      cases hj : r.closer? i with
      | none => rfl
      | some j =>
        have := lt_of_closer? hj
        have hjlt := hr.within.lt_of_closer? hj
        dsimp only
        rw [retag_eq hr ho hlt hjlt, some_bind,
          object_eq hr ((s.outline_mark _).trans ho) (Nat.le_of_lt hjlt) (by omega)]
        rfl
    | openBracket =>
      rw [hclose rfl, Stream.skip]
      cases hj : r.closer? i with
      | none => rfl
      | some j =>
        have := lt_of_closer? hj
        dsimp only
        rw [list_eq hr ho (Nat.le_of_lt (hr.within.lt_of_closer? hj)) (by omega)]
        rfl
    | _ => rfl
  · rw [target, targetMarks, afterTarget, if_neg hi, if_neg (fun h => hi h.1), if_neg hi]
    rfl
termination_by 2 * (r.tokens.size - i)

theorem list_eq {r s : Stream} (hr : r.Matched) (ho : s.outline = r.outline) {n i stop : Nat}
    (hstop : stop ≤ r.tokens.size) (hn : 2 * (r.tokens.size - i) + 1 < n) :
    list n s i stop = some ((r.listMarks i stop).foldl mark s) := by
  obtain _ | n := n
  · cases hn
  by_cases hi : i < stop
  · have hlt := Nat.lt_of_lt_of_le hi hstop
    have := r.lt_nextElement (Nat.le_of_lt hi)
    have ho' := outline_marks ho (r.targetMarks i stop)
    rw [list, listMarks, if_pos hi, if_pos ⟨hi, hlt⟩, target_eq hr ho hstop (by omega), some_bind]
    dsimp only
    rw [next_eq ho' hstop, some_bind, List.foldl_append]
    change list n _ (r.nextElement i stop) stop = _
    exact list_eq hr ho' hstop (by omega)
  · rw [list, listMarks, if_neg hi, if_neg fun h => hi h.1]
    rfl
termination_by 2 * (r.tokens.size - i) + 1

theorem object_eq {r s : Stream} (hr : r.Matched) (ho : s.outline = r.outline) {n i stop : Nat}
    (hstop : stop ≤ r.tokens.size) (hn : 2 * (r.tokens.size - i) + 1 < n) :
    object n s i stop = some ((r.objectMarks i stop).foldl mark s) := by
  obtain _ | n := n
  · cases hn
  by_cases hi : i < stop
  · have hlt := Nat.lt_of_lt_of_le hi hstop
    obtain ⟨t, ht⟩ := exists_token (s := s) (by rwa [size_of_outline ho])
    obtain ⟨u, hu, hut⟩ := exists_of_outline ho ht
    obtain ⟨hkind, hpair, _⟩ := same_of_outline hut
    have hat (kind : Kind) : r.isAt i kind = decide (t.kind = kind) := by rw [isAt_eq hu, hkind]
    have hkey := keyEnd_eq hr ho ht
    have hlater := r.lt_afterKey i
    have hcolon := colonAt_eq ho (i := r.afterKey i) hstop
    rw [object, objectMarks, if_pos hi, if_pos ⟨hi, hlt⟩, ht, some_bind, hkey]
    dsimp only
    rw [hat, hat, hcolon, some_bind]
    simp only [decide_eq_true_eq]
    split
    · have := r.lt_nextElement (show i + 1 ≤ stop from hi)
      have ho' := outline_marks ho (r.targetMarks (i + 1) stop)
      rw [target_eq hr ho hstop (by omega), some_bind]
      dsimp only
      rw [next_eq ho' hstop, some_bind, List.foldl_append]
      change object n _ (r.nextElement (i + 1) stop) stop = _
      exact object_eq hr ho' hstop (by omega)
    split
    · have := r.lt_nextElement (show r.afterKey i + 1 ≤ stop from (‹_ ∧ _› : _ ∧ _).1)
      have ho' := outline_marks ho (r.targetMarks (r.afterKey i + 1) stop)
      rw [target_eq hr ho hstop (by omega), some_bind]
      dsimp only
      rw [next_eq ho' hstop, some_bind, List.foldl_append]
      change object n _ (r.nextElement (r.afterKey i + 1) stop) stop = _
      exact object_eq hr ho' hstop (by omega)
    · have := r.min_le_skipToComma (r.afterKey i) stop
      have hrest {v : Stream} (hov : v.outline = r.outline) :
          (skipToComma v (r.afterKey i) stop >>= fun k => object n v (k + 1) stop) =
            some ((r.objectMarks (r.skipToComma (r.afterKey i) stop + 1) stop).foldl mark v) := by
        rw [skipToComma_eq (by rwa [size_of_outline hov]), some_bind, (Congruent.of_outline hov).skipToComma_eq]
        exact object_eq hr hov hstop (by omega)
      split
      · rw [write_eq (by rwa [size_of_outline ho])]
        exact hrest ((s.outline_setRole i .declaration).trans ho)
      · exact hrest ho
  · rw [object, objectMarks, if_neg hi, if_neg fun h => hi h.1]
    rfl
termination_by 2 * (r.tokens.size - i) + 1

end

end Stream.InPlace

namespace Stream

variable {r : Stream}

theorem Matched.afterTarget_le (hr : r.Matched) {o i stop : Nat} (hclose : r.closer? o = some stop) (hoi : o < i)
    (hi : i ≤ stop) : r.afterTarget i stop ≤ stop := by
  have hskip {k : Nat} (hok : o < k) (hk : k < stop) : r.skip k ≤ stop := by
    unfold skip
    split
    · exact hr.nested o stop k _ hclose ‹_› hok hk
    · exact hk
  fun_induction afterTarget r i stop with
  | case1 i hlt _ ih => exact ih (by omega) hlt
  | case2 i hlt _ => exact hlt
  | case3 i hlt _ | case4 i hlt _ => exact hskip hoi hlt
  | case5 | case6 => exact hi

mutual

theorem pattern_lt_of_mem_targetMarks (hr : r.Matched) {i stop a b : Nat} (hm : .pattern a b ∈ r.targetMarks i stop) :
    a < b ∧ b < r.afterTarget i stop := by
  unfold targetMarks at hm
  split at hm
  · rename_i hlt
    split at hm
    · rename_i hkind
      rw [afterTarget, if_pos hlt.1, hkind]
      exact pattern_lt_of_mem_targetMarks hr hm
    · cases List.mem_singleton.1 hm
    · rename_i hkind
      rw [afterTarget, if_pos hlt.1, hkind]
      split at hm
      · rename_i j hj
        have hend : r.skip i = j + 1 := by rw [skip, hj]
        rw [hend]
        rcases List.mem_cons.1 hm with heq | hm
        · cases heq
          exact ⟨lt_of_closer? hj, Nat.lt_succ_self _⟩
        · obtain ⟨hab, hbj⟩ := pattern_lt_of_mem_objectMarks hr hj (Nat.lt_succ_self i) hm
          exact ⟨hab, Nat.lt_succ_of_lt hbj⟩
      · cases hm
    · rename_i hkind
      rw [afterTarget, if_pos hlt.1, hkind]
      split at hm
      · rename_i j hj
        have hend : r.skip i = j + 1 := by rw [skip, hj]
        rw [hend]
        obtain ⟨hab, hbj⟩ := pattern_lt_of_mem_listMarks hr hj (Nat.lt_succ_self i) hm
        exact ⟨hab, Nat.lt_succ_of_lt hbj⟩
      · cases hm
    · cases hm
  · cases hm
termination_by 2 * (r.tokens.size - i)

theorem pattern_lt_of_mem_listMarks (hr : r.Matched) {o i stop a b : Nat} (hclose : r.closer? o = some stop)
    (hoi : o < i) (hm : .pattern a b ∈ r.listMarks i stop) : a < b ∧ b < stop := by
  unfold listMarks at hm
  split at hm
  · rename_i hlt
    have hnext := r.lt_nextElement (Nat.le_of_lt hlt.1)
    rcases List.mem_append.1 hm with hm | hm
    · obtain ⟨hab, hb⟩ := pattern_lt_of_mem_targetMarks hr hm
      have := hr.afterTarget_le hclose hoi (Nat.le_of_lt hlt.1)
      omega
    · exact pattern_lt_of_mem_listMarks hr hclose (by omega) hm
  · cases hm
termination_by 2 * (r.tokens.size - i) + 1

theorem pattern_lt_of_mem_objectMarks (hr : r.Matched) {o i stop a b : Nat} (hclose : r.closer? o = some stop)
    (hoi : o < i) (hm : .pattern a b ∈ r.objectMarks i stop) : a < b ∧ b < stop := by
  unfold objectMarks at hm
  split at hm
  · rename_i hlt
    have hkey := r.lt_afterKey i
    dsimp only at hm
    split at hm
    · have hnext := r.lt_nextElement (show i + 1 ≤ stop from hlt.1)
      rcases List.mem_append.1 hm with hm | hm
      · obtain ⟨hab, hb⟩ := pattern_lt_of_mem_targetMarks hr hm
        have := hr.afterTarget_le hclose (by omega) (show i + 1 ≤ stop from hlt.1)
        omega
      · exact pattern_lt_of_mem_objectMarks hr hclose (by omega) hm
    · split at hm
      · rename_i hcolon
        have hnext := r.lt_nextElement (show r.afterKey i + 1 ≤ stop from hcolon.1)
        rcases List.mem_append.1 hm with hm | hm
        · obtain ⟨hab, hb⟩ := pattern_lt_of_mem_targetMarks hr hm
          have := hr.afterTarget_le hclose (by omega) (show r.afterKey i + 1 ≤ stop from hcolon.1)
          omega
        · exact pattern_lt_of_mem_objectMarks hr hclose (by omega) hm
      · have hnext := r.min_le_skipToComma (r.afterKey i) stop
        rcases List.mem_append.1 hm with hm | hm
        · split at hm
          · cases List.mem_singleton.1 hm
          · cases hm
        · exact pattern_lt_of_mem_objectMarks hr hclose (by omega) hm
  · cases hm
termination_by 2 * (r.tokens.size - i) + 1

end

theorem endsExpression_update (s : Stream) {i k : Nat} {f : Token → Token}
    (hf : i = k → ∀ t, (f t).endsExpression = t.endsExpression) :
    ((s.update i f).tokens[k]?).any Token.endsExpression = (s.tokens[k]?).any Token.endsExpression := by
  unfold update
  rw [Array.getElem?_modify]
  split
  · rename_i heq
    cases s.tokens[k]? with
    | none => rfl
    | some t => exact hf heq t
  · rfl

theorem endsExpression_mark (s : Stream) {m : Mark} {k : Nat} (hm : ∀ a b, m = .pattern a b → a ≠ k ∧ b ≠ k) :
    ((s.mark m).tokens[k]?).any Token.endsExpression = (s.tokens[k]?).any Token.endsExpression := by
  cases m with
  | target i =>
    refine s.endsExpression_update fun _ t => ?_
    split <;> rfl
  | name i => exact s.endsExpression_update fun _ _ => rfl
  | pattern a b =>
    obtain ⟨ha, hb⟩ := hm a b rfl
    have henter (u : Stream) (i : Nat) :
        ((u.enterPattern i).tokens[k]?).any Token.endsExpression = (u.tokens[k]?).any Token.endsExpression := by
      refine u.endsExpression_update fun _ t => ?_
      split
      · rename_i hobject
        unfold Token.endsExpression
        rw [hobject]
        rfl
      · rfl
    have hgroups : (((s.setGroup a .pattern).setGroup b .pattern).tokens[k]?).any Token.endsExpression =
        (s.tokens[k]?).any Token.endsExpression :=
      (endsExpression_update _ fun h => absurd h hb).trans (endsExpression_update _ fun h => absurd h ha)
    refine List.foldlRecOn (motive := fun u : Stream => (u.tokens[k]?).any Token.endsExpression =
      (s.tokens[k]?).any Token.endsExpression) _ _ hgroups fun u hu i _ => ?_
    exact (henter u i).trans hu

theorem endsExpression_targetMarks (s : Stream) (hr : r.Matched) {i stop k : Nat} (hk : r.afterTarget i stop ≤ k) :
    (((r.targetMarks i stop).foldl mark s).tokens[k]?).any Token.endsExpression =
      (s.tokens[k]?).any Token.endsExpression := by
  refine List.foldlRecOn (motive := fun u : Stream => (u.tokens[k]?).any Token.endsExpression =
    (s.tokens[k]?).any Token.endsExpression) _ _ rfl fun u hu m hm => (u.endsExpression_mark ?_).trans hu
  rintro a b rfl
  have := pattern_lt_of_mem_targetMarks hr hm
  omega

theorem initializerEnd_congr {s : Stream} (ho : s.outline = r.outline) {j : Nat} (hends : ∀ k, j ≤ k + 1 →
    (s.tokens[k]?).any Token.endsExpression = (r.tokens[k]?).any Token.endsExpression) :
    s.initializerEnd j = r.initializerEnd j := by
  have hbefore {k : Nat} (hk : j ≤ k) :
      (s.before? k).any (·.endsExpression) = (r.before? k).any (·.endsExpression) := by
    unfold before?
    split
    · rfl
    · exact hends (k - 1) (by omega)
  have hat {k : Nat} (hk : j ≤ k) {t u : Token} (hut : u.outline = t.outline) :
      s.endsInitializer k t = r.endsInitializer k u := by
    obtain ⟨hkind, hpair, _⟩ := same_of_outline hut
    have hline : u.lineBreak = t.lineBreak := congrArg (·.lineBreak) hut
    rw [endsInitializer, endsInitializer, hbefore hk, hkind, hpair, hline]
  fun_induction initializerEnd s j with
  | case1 j hnone =>
    have hnone' : r.tokens[j]? = none := by
      rw [Array.getElem?_eq_none_iff] at hnone ⊢
      rwa [← size_of_outline ho]
    rw [initializerEnd]
    split
    · rfl
    · rename_i hu
      rw [hnone'] at hu
      cases hu
  | case2 j t ht hend =>
    obtain ⟨u, hu, hut⟩ := exists_of_outline ho ht
    rw [initializerEnd_of_getElem? hu, ← hat (Nat.le_refl j) hut, if_pos hend]
  | case3 j t ht hgoes ih =>
    obtain ⟨u, hu, hut⟩ := exists_of_outline ho ht
    have hskip := s.lt_skip j
    rw [initializerEnd_of_getElem? hu, ← hat (Nat.le_refl j) hut, if_neg hgoes, ← (Congruent.of_outline ho).skip_eq]
    exact ih (fun k hk => hends k (by omega)) (fun hk => hbefore (by omega)) fun hk => hat (by omega)

end Stream

namespace Stream.InPlace

theorem initializerEnd_eq {s : Stream} {j : Nat} (hj : 0 < j) : initializerEnd s j = some (s.initializerEnd j) := by
  fun_induction Stream.initializerEnd s j with
  | case1 j hnone =>
    rw [initializerEnd, hnone]
  | case2 j t ht hends =>
    have hlt := lt_size_of_getElem? ht
    obtain ⟨p, hp⟩ := exists_token (s := s) (show j - 1 < s.tokens.size by omega)
    have hbefore : s.before? j = some p := by rw [before?, if_neg (by omega), hp]
    rw [endsInitializer, hbefore] at hends
    rw [initializerEnd, ht, hbefore]
    exact if_pos hends
  | case3 j t ht hgoes ih =>
    have hlt := lt_size_of_getElem? ht
    obtain ⟨p, hp⟩ := exists_token (s := s) (show j - 1 < s.tokens.size by omega)
    have hbefore : s.before? j = some p := by rw [before?, if_neg (by omega), hp]
    rw [endsInitializer, hbefore] at hgoes
    have hskip := s.lt_skip j
    rw [initializerEnd, ht, hbefore]
    refine (if_neg hgoes).trans ?_
    rw [skip_eq ht]
    exact ih (by omega)

theorem declarators_eq {r s : Stream} (hr : r.Matched) (ho : s.outline = r.outline) {n i : Nat}
    (hn : 2 * (r.tokens.size - i) + 1 < n) (hends : ∀ k, i ≤ k →
      (s.tokens[k]?).any Token.endsExpression = (r.tokens[k]?).any Token.endsExpression) :
    declarators n s i = some ((r.declaratorMarks i).foldl mark s) := by
  obtain _ | n := n
  · cases hn
  have ho' := outline_marks ho (r.targetMarks i r.tokens.size)
  have hle := r.le_afterTarget i r.tokens.size
  have hends' (k : Nat) (hk : r.afterTarget i r.tokens.size ≤ k) :
      (((r.targetMarks i r.tokens.size).foldl mark s).tokens[k]?).any Token.endsExpression =
        (r.tokens[k]?).any Token.endsExpression :=
    (endsExpression_targetMarks s hr hk).trans (hends k (by omega))
  have hstop : afterInitializer ((r.targetMarks i r.tokens.size).foldl mark s) (r.afterTarget i r.tokens.size) =
      some (r.skipInitializer (r.afterTarget i r.tokens.size)) := by
    rw [afterInitializer, isAt_outline ho', skipInitializer, initializerEnd_eq (Nat.succ_pos _),
      initializerEnd_congr ho' fun k hk => hends' k (by omega)]
    split <;> rfl
  rw [declarators, size_of_outline ho, target_eq hr ho (Nat.le_refl _) (by omega), some_bind, declaratorMarks]
  dsimp only
  rw [hstop, some_bind, isAt_outline ho']
  have := r.le_skipInitializer (r.afterTarget i r.tokens.size)
  split
  · rename_i hcomma
    have := lt_size_of_isAt hcomma
    rw [List.foldl_append]
    exact declarators_eq hr ho' (by omega) fun k hk => hends' k (by omega)
  · rfl
termination_by r.tokens.size - i

theorem isParameterList_eq {s : Stream} {i : Nat} {t : Token} (ht : s.tokens[i]? = some t) (j : Nat) :
    isParameterList s i j t = some (s.isParameterList i j t) := by
  have hi := lt_size_of_getElem? ht
  rw [isParameterList, Stream.isParameterList, previous_eq (Nat.le_of_lt hi),
    previous_eq (show i - 1 ≤ s.tokens.size by omega)]
  by_cases harrow : s.isAt (j + 1) .arrow
  · rw [if_pos harrow, harrow, Bool.true_or]
    rfl
  · rw [if_neg harrow, Bool.eq_false_iff.2 harrow, Bool.false_or]
    simp only [some_bind]
    cases s.before? i with
    | none => rfl
    | some p =>
      dsimp only
      cases p.kind with
      | keyword word => cases word <;> rfl
      | _ => rfl

theorem site_eq {s : Stream} (hs : s.Matched) {n i : Nat} (hi : i < s.tokens.size) (hn : 2 * s.tokens.size + 1 ≤ n) :
    site n s i = some (s.markSite i) := by
  obtain ⟨t, ht⟩ := exists_token hi
  rw [site, markSite, siteMarks, ht, some_bind]
  dsimp only
  cases t.kind with
  | openParen =>
    cases hp : t.pair with
    | none => rfl
    | some j =>
      dsimp only
      rw [isParameterList_eq ht, some_bind]
      split
      · exact list_eq hs rfl (Nat.le_of_lt (hs.within t (Array.mem_of_getElem? ht) j hp)) (by omega)
      · rfl
  | identifier =>
    dsimp only
    split
    · exact write_eq hi _
    · rfl
  | keyword word =>
    dsimp only
    split
    · exact declarators_eq hs rfl (by omega) fun _ _ => rfl
    · rfl
  | _ => rfl

theorem foldlM_eq {r : Stream} {f : Stream → Nat → Option Stream} {g : Stream → Nat → Stream}
    (hg : ∀ s i, (g s i).outline = s.outline)
    (hf : ∀ s i, s.outline = r.outline → i < r.tokens.size → f s i = some (g s i)) {s : Stream}
    (hs : s.outline = r.outline) {is : List Nat} (his : ∀ i ∈ is, i < r.tokens.size) :
    is.foldlM f s = some (is.foldl g s) := by
  induction is generalizing s with
  | nil => rfl
  | cons i is ih =>
    rw [List.foldlM_cons, hf s i hs (his i List.mem_cons_self), List.foldl_cons]
    exact ih ((hg s i).trans hs) fun k hk => his k (List.mem_cons_of_mem i hk)

end Stream.InPlace

namespace Stream

theorem classify?_eq {r : Stream} (hr : r.Matched) {n : Nat} (hn : 2 * r.tokens.size + 1 ≤ n) :
    r.classify? n = some r.assignRoles.markSites := by
  have hrange : ∀ i ∈ List.range r.tokens.size, i < r.tokens.size := fun _ => List.mem_range.1
  have ho : r.assignRoles.outline = r.outline := r.outline_assignRoles
  have hassign : (List.range r.tokens.size).foldlM InPlace.assign r = some r.assignRoles :=
    InPlace.foldlM_eq outline_assignRole (fun s i ho hi => InPlace.assign_eq (by rwa [size_of_outline ho])) rfl hrange
  have hsites : (List.range r.tokens.size).foldlM (InPlace.site n) r.assignRoles =
      some ((List.range r.tokens.size).foldl markSite r.assignRoles) :=
    InPlace.foldlM_eq outline_markSite (fun s i ho hi => by
      have hsize := size_of_outline ho
      exact InPlace.site_eq (hr.outline ho) (by omega) (by omega)) ho hrange
  rw [classify?, hassign, markSites, size_of_outline ho]
  exact (congrArg (fun k => (List.range k).foldlM (InPlace.site n) r.assignRoles) (size_of_outline ho)).trans hsites

end Stream

end ModuleLowering
