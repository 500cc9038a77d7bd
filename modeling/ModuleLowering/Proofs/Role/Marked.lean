import ModuleLowering.Proofs.Role.TargetNames

namespace ModuleLowering

namespace Stream

structure Underlies (m s : Stream) : Prop where
  outline : m.outline = s.outline
  ends : ∀ i : Nat, (m.tokens[i]?).any Token.endsExpression → (s.tokens[i]?).any Token.endsExpression
  roles : ∀ i, s.role? i = m.role? i ∨ s.role? i = some .declaration

theorem Underlies.refl (s : Stream) : s.Underlies s := ⟨rfl, fun _ => id, fun _ => .inl rfl⟩

theorem Underlies.trans {l m s : Stream} (hl : l.Underlies m) (hm : m.Underlies s) : l.Underlies s where
  outline := hl.outline.trans hm.outline
  ends i h := hm.ends i (hl.ends i h)
  roles i := (hm.roles i).elim (fun heq => heq ▸ hl.roles i) .inr

theorem underlies_update (s : Stream) (i : Nat) {f : Token → Token} (ho : ∀ t, (f t).outline = t.outline)
    (hends : ∀ t, t.endsExpression → (f t).endsExpression)
    (hrole : ∀ t, (f t).role = t.role ∨ (f t).role = some .declaration) : s.Underlies (s.update i f) := by
  have htokens (k : Nat) : (s.update i f).tokens[k]? = if i = k then s.tokens[k]?.map f else s.tokens[k]? :=
    Array.getElem?_modify ..
  refine ⟨(s.outline_update i ho).symm, fun k h => ?_, fun k => ?_⟩
  · rw [htokens]
    obtain ⟨t, ht, hend⟩ := (Option.any_eq_true _ _).1 h
    rw [ht]
    split
    · exact hends t hend
    · exact hend
  · rw [role?, role?, htokens]
    split
    · cases s.tokens[k]? with
      | none => exact .inl rfl
      | some t => exact hrole t
    · exact .inl rfl

theorem underlies_setGroup (s : Stream) (i : Nat) : s.Underlies (s.setGroup i .pattern) := by
  refine s.underlies_update i (fun _ => rfl) (fun t h => ?_) fun _ => .inl rfl
  unfold Token.endsExpression at h ⊢
  dsimp only at h ⊢
  generalize t.kind = kind at h ⊢
  cases kind with
  | closeBrace => rfl
  | _ => exact h

theorem underlies_enterPattern (s : Stream) (i : Nat) : s.Underlies (s.enterPattern i) := by
  refine s.underlies_update i (fun t => ?_) (fun t h => ?_) fun t => ?_
  · split
    · rename_i hobject
      simp [Token.outline, hobject]
    · rfl
  · split
    · rename_i hobject
      unfold Token.endsExpression at h ⊢
      rw [hobject] at h
      exact h
    · exact h
  · split <;> exact .inl rfl

theorem underlies_mark (s : Stream) (m : Mark) : s.Underlies (s.mark m) := by
  cases m with
  | target i =>
    refine s.underlies_update i (fun t => ?_) (fun t h => ?_) fun t => ?_
    · split <;> rfl
    · split <;> exact h
    · split
      · exact .inr rfl
      · exact .inl rfl
  | name i => exact s.underlies_update i (fun _ => rfl) (fun _ => id) fun _ => .inr rfl
  | pattern i j =>
    refine List.foldlRecOn _ _ ((s.underlies_setGroup i).trans (underlies_setGroup _ j)) fun u hu k _ => ?_
    exact hu.trans (u.underlies_enterPattern k)

theorem underlies_marks (s : Stream) (ms : List Mark) : s.Underlies (ms.foldl mark s) :=
  List.foldlRecOn _ _ (.refl s) fun u hu m _ => hu.trans (u.underlies_mark m)

theorem underlies_markSites (s : Stream) (is : List Nat) : s.Underlies (is.foldl markSite s) :=
  List.foldlRecOn _ _ (.refl s) fun u hu i _ => hu.trans (u.underlies_marks (u.siteMarks i))

theorem underlies_stage {s : Stream} {k : Nat} (hk : k < s.tokens.size) :
    ((List.range k).foldl markSite s).Underlies s.markSites := by
  rw [markSites, range_eq_append_cons hk, List.foldl_append]
  exact underlies_markSites _ _

theorem Underlies.declaration {m s : Stream} (h : m.Underlies s) {i : Nat} (hi : m.role? i = some .declaration) :
    s.role? i = some .declaration := (h.roles i).elim (·.trans hi) id

theorem role?_mark_name {s : Stream} {i : Nat} (hi : i < s.tokens.size) :
    (s.mark (.name i)).role? i = some .declaration := role?_setRole hi .declaration

theorem role?_mark_target {s : Stream} {i : Nat} (hi : s.role? i = some .reference ∨ s.role? i = some .declaration) :
    (s.mark (.target i)).role? i = some .declaration := by
  unfold role? at hi
  unfold role? mark update
  dsimp only
  rw [Array.getElem?_modify, if_pos rfl]
  cases ht : s.tokens[i]? with
  | none => simp [ht] at hi
  | some t =>
    rw [ht] at hi
    change t.role = _ ∨ t.role = _ at hi
    rcases hi with hi | hi <;> simp [hi]

theorem role?_of_mem_siteMarks {s : Stream} {k : Nat} (hk : k < s.tokens.size) {m : Mark}
    (hm : m ∈ ((List.range k).foldl markSite s).siteMarks k) {i : Nat}
    (hset : ∀ u, s.Underlies u → (u.mark m).role? i = some .declaration) : s.markSites.role? i = some .declaration := by
  rw [markSites, range_eq_append_cons hk, List.foldl_append, List.foldl_cons]
  refine (underlies_markSites _ _).declaration ?_
  have hstage := s.underlies_markSites (List.range k)
  generalize (List.range k).foldl markSite s = u at hm hstage ⊢
  obtain ⟨before, after, hmarks⟩ := List.append_of_mem hm
  rw [markSite, hmarks, List.foldl_append, List.foldl_cons]
  exact (underlies_marks _ _).declaration (hset _ (hstage.trans (u.underlies_marks before)))

end Stream

end ModuleLowering
