import ModuleLowering.Lowering.Basic
import ModuleLowering.Proofs.Lowering.Chain
import ModuleLowering.Proofs.SourceModule.Overlooked

namespace ModuleLowering

open Text

namespace Progress

variable {α : Type}

theorem collect_cons (x : Except Diagnostic (List α)) (xs : List (Except Diagnostic (List α))) :
    (collect (x :: xs)).toExcept = x >>= fun first => (collect xs).toExcept.map (first ++ ·) := by
  cases x with
  | error => rfl
  | ok first =>
    change (Progress.mk (first ++ (collect xs).done) (collect xs).failure).toExcept = _
    unfold toExcept
    cases (collect xs).failure <;> rfl

theorem cons_of_collect {x : Except Diagnostic (List α)} {xs : List (Except Diagnostic (List α))}
    {ys : List α} (h : (collect (x :: xs)).toExcept = .ok ys) :
    ∃ first rest, x = .ok first ∧ (collect xs).toExcept = .ok rest ∧ ys = first ++ rest := by
  rw [collect_cons] at h
  obtain ⟨first, hfirst, h⟩ := bind_eq_ok_iff.1 h
  obtain ⟨rest, hrest, h⟩ := map_eq_ok_iff.1 h
  exact ⟨first, rest, hfirst, hrest, h.symm⟩

theorem exists_of_mem_collect {xs : List (Except Diagnostic (List α))} {ys : List α}
    (h : (collect xs).toExcept = .ok ys) {y : α} (hy : y ∈ ys) : ∃ zs, .ok zs ∈ xs ∧ y ∈ zs := by
  induction xs generalizing ys with
  | nil =>
    cases h
    cases hy
  | cons x xs ih =>
    obtain ⟨first, rest, rfl, hrest, rfl⟩ := cons_of_collect h
    rcases List.mem_append.1 hy with hy | hy
    · exact ⟨first, List.mem_cons_self, hy⟩
    · obtain ⟨zs, hzs, hy⟩ := ih hrest hy
      exact ⟨zs, List.mem_cons_of_mem _ hzs, hy⟩

theorem exists_of_collect {xs : List (Except Diagnostic (List α))} {ys : List α}
    (h : (collect xs).toExcept = .ok ys) {x : Except Diagnostic (List α)} (hx : x ∈ xs) :
    ∃ zs, x = .ok zs ∧ ∀ z ∈ zs, z ∈ ys := by
  induction xs generalizing ys with
  | nil => cases hx
  | cons x' xs ih =>
    obtain ⟨first, rest, rfl, hrest, rfl⟩ := cons_of_collect h
    rcases List.mem_cons.1 hx with rfl | hx
    · exact ⟨first, rfl, fun z hz => List.mem_append_left rest hz⟩
    · obtain ⟨zs, rfl, hzs⟩ := ih hrest hx
      exact ⟨zs, rfl, fun z hz => List.mem_append_right first (hzs z hz)⟩

end Progress

namespace Stream

variable {s : Stream} {source : List Char}

theorem Reads.passes {r : Reading} (h : s.Reads r) (hs : s.WellFormed source) :
    s.Passes (s.Overlooks r.first) (r.first + 1) r.next := by
  cases h with
  | imports _ _ _ hi => exact hs.passes_importStatement hi
  | exports ht _ hk hi => exact hi.passes hs (isAt_iff.2 ⟨_, ht, hk⟩)

theorem Reads.next_le_size {r : Reading} (h : s.Reads r) (hs : s.WellFormed source) :
    r.next ≤ s.tokens.size := (h.passes hs).le_size h.first_lt_size

inductive Part (s : Stream) (r : Reading) : Nat → Nat → Prop
  | statement (h : Context.consumedSpan r.item = some (s.spanOf r.first r.next)) : Part s r r.first r.next
  | keyword (h : s.isAt r.first (.keyword .«export»)) : Part s r r.first (r.first + 1)
  | keywords (h : s.isAt r.first (.keyword .«export»)) (h' : s.isAt (r.first + 1) (.keyword .default)) :
      Part s r r.first (r.first + 2)
  | point {i : Nat} (h : r.first < i) : Part s r i i

theorem chain_initializerChange? {P : Nat → Nat → Prop} {j k : Nat} (hP : s.isAt j .equals → P (j + 1) (j + 1))
    {names : List String} {simple : Bool} {equalsEnd : Option Nat} (hi : s.initializer j = .ok (equalsEnd, k)) :
    s.Chain P j k ((Context.initializerChange? ⟨names, simple, equalsEnd⟩).toList.map (·.span)) := by
  have hle := le_of_initializer hi
  unfold Context.initializerChange?
  split
  · rename_i stop _ _ _ hstop _
    dsimp only at hstop
    subst hstop
    obtain ⟨hlt, hequals, rfl⟩ := equalsEnd_of_initializer hi
    change s.Chain P j k [Span.point (s.stopBefore (j + 1))]
    rw [← s.spanOf_self]
    exact .single (by omega) (Nat.le_refl _) (by omega) (hP hequals)
  · exact .nil hle

theorem chain_declarators {P : Nat → Nat → Prop} {i j : Nat} (hP : ∀ n, i < n → s.isAt n .equals → P (n + 1) (n + 1))
    {ds : List Declarator} (h : s.declarators i = .ok (ds, j)) :
    s.Chain P i j ((ds.filterMap Context.initializerChange?).map (·.span)) := by
  have hcons (d : Declarator) (rest : List Declarator) :
      ((d :: rest).filterMap Context.initializerChange?).map (·.span) =
        (Context.initializerChange? d).toList.map (·.span) ++
          (rest.filterMap Context.initializerChange?).map (·.span) := by
    rw [List.filterMap_cons]
    cases Context.initializerChange? d <;> rfl
  fun_induction declarators s i generalizing ds j with
  | case1 => cases h
  | case2 => cases h
  | case3 i names simple n ht equalsEnd k hi =>
    rename_i ih
    obtain ⟨⟨rest, n'⟩, hn, he⟩ := map_eq_ok_iff.1 h
    cases he
    have := lt_of_declaratorTarget? ht
    have := le_of_initializer hi
    rw [hcons]
    exact ((chain_initializerChange? (hP n (by omega)) hi).mono_left (by omega)).append
      ((ih (fun m hm => hP m (by omega)) hn).mono_left (Nat.le_succ k))
  | case4 i names simple n ht equalsEnd k hi =>
    cases h
    have := lt_of_declaratorTarget? ht
    rw [hcons, List.filterMap_nil, List.map_nil, List.append_nil]
    exact (chain_initializerChange? (hP n (by omega)) hi).mono_left (by omega)

theorem span_of_initializerChange {i j : Nat} {ds : List Declarator} (h : s.declarators i = .ok (ds, j)) {c : Change}
    (hc : c ∈ ds.filterMap Context.initializerChange?) :
    ∃ k, i < k ∧ k + 1 < j ∧ s.isAt k .equals ∧ c.span = s.spanOf (k + 1) (k + 1) := by
  obtain ⟨d, hd, hchange⟩ := List.mem_filterMap.1 hc
  unfold Context.initializerChange? at hchange
  split at hchange
  · rename_i hequals _
    cases hchange
    obtain ⟨k, hik, hkj, hk, rfl⟩ := equalsEnd_of_declarators h hd hequals
    exact ⟨k, hik, hkj, hk, (s.spanOf_self _).symm⟩
  · cases hchange

theorem consumedSpan_of_reads {r : Reading} (h : s.Reads r) (hlt : r.first < r.next) {span : Span}
    (hspan : Context.consumedSpan r.item = some span) : span = s.spanOf r.first r.next := by
  rw [s.spanOf_of_lt hlt]
  cases h with
  | imports _ _ _ hi =>
    unfold importStatement at hi
    split at hi
    · cases hi
    · split at hi <;> cases hi
      cases hspan
      rfl
  | exports _ _ _ hi => cases hi <;> cases hspan <;> rfl

theorem Reads.chain_whole {r : Reading} (h : s.Reads r) (hlt : r.first < r.next) {span : Span}
    (hspan : Context.consumedSpan r.item = some span) : s.Chain (s.Part r) r.first r.next [span] := by
  obtain rfl := consumedSpan_of_reads h hlt hspan
  exact .single (Nat.le_refl _) (Nat.le_of_lt hlt) (Nat.le_refl _) (.statement hspan)

theorem chain_body {r : Reading} {n : Nat} (hn : r.first < n) (hnext : n ≤ r.next)
    (hpart : s.Part r r.first n) :
    s.Chain (s.Part r) r.first r.next
      [⟨s.offsetAt r.first, s.stopBefore n⟩, .point (s.stopBefore r.next)] := by
  rw [← s.spanOf_of_lt hn, ← s.spanOf_self]
  exact .cons (Nat.le_refl _) (Nat.le_of_lt hn) hpart
    (.single hnext (Nat.le_refl _) (Nat.le_refl _) (.point (Nat.lt_of_lt_of_le hn hnext)))

theorem chain_variables {r : Reading} {declarators : List Declarator} {j : Nat}
    (hi : s.isAt r.first (.keyword .«export»)) (hd : s.declarators (r.first + 2) = .ok (declarators, j))
    (hnext : r.next = s.finish j) :
    s.Chain (s.Part r) r.first r.next
      ((Context.variableChanges (s.exportKeyword r.first) declarators (s.stopBefore r.next)).map (·.span)) := by
  have hle := s.le_finish j
  have hlt := lt_of_declarators hd
  have hkeyword : s.exportKeyword r.first = s.spanOf r.first (r.first + 1) :=
    (s.spanOf_of_lt (Nat.lt_add_one _)).symm
  unfold Context.variableChanges
  dsimp only
  rw [List.cons_append, List.map_cons, List.map_append]
  change s.Chain _ _ _ (s.exportKeyword r.first :: _)
  rw [hkeyword]
  refine .cons (Nat.le_refl _) (Nat.le_succ _) (.keyword hi) ?_
  apply ((chain_declarators (fun m hm _ => .point (by omega)) hd).mono_left (Nat.le_succ _)).append
  split
  · exact .nil (by omega)
  · change s.Chain _ _ _ [Span.point (s.stopBefore r.next)]
    rw [← s.spanOf_self]
    exact .single (by omega) (Nat.le_refl _) (Nat.le_refl _) (.point (by omega))

theorem ExportForm.chain {i j : Nat} {st : ExportStatement} (h : s.ExportForm i st j)
    (hi : s.isAt i (.keyword .«export»)) {x : Context} {changes : List Change}
    (hx : x.exportChanges st = .ok changes)
    (hwhole : ∀ span, st.consumedSpan = some span → s.Chain (s.Part ⟨i, j, .exports st⟩) i j [span]) :
    s.Chain (s.Part ⟨i, j, .exports st⟩) i j (changes.map (·.span)) := by
  cases h with
  | defaultExpression hdefault =>
    have := s.le_expressionEnd (i + 2)
    have := s.le_finish (s.expressionEnd (i + 2))
    cases hx
    change s.Chain _ _ _ [s.defaultKeywords i]
    rw [defaultKeywords, ← s.spanOf_of_lt (by omega)]
    exact .single (Nat.le_refl i) (by omega) (by omega) (.keywords hi hdefault)
  | defaultNamed hdefault hd | defaultAnonymous hdefault hd =>
    have := hd.lt_next
    cases hx
    rw [hd.bodyEnd_eq]
    exact chain_body (n := i + 2) (Nat.lt_add_of_pos_right (by omega)) (Nat.le_of_lt this)
      (.keywords hi hdefault)
  | variableList _ _ hd =>
    cases hx
    exact chain_variables (r := ⟨i, _, _⟩) hi hd rfl
  | declaration hd =>
    have := hd.lt_next
    cases hx
    rw [hd.bodyEnd_eq]
    exact chain_body (n := i + 1) (Nat.lt_add_one i) (Nat.le_of_lt this) (.keyword hi)
  | names =>
    cases hx
    exact hwhole _ rfl
  | namesFrom =>
    obtain ⟨getters, _, he⟩ := bind_eq_ok_iff.1 hx
    cases he
    exact hwhole _ rfl

theorem Reads.chain {r : Reading} (h : s.Reads r) (hlt : r.first < r.next) {x : Context}
    {changes : List Change} (hx : x.itemChanges r.item = .ok changes) :
    s.Chain (s.Part r) r.first r.next (changes.map (·.span)) := by
  have hwhole (span : Span) (hspan : Context.consumedSpan r.item = some span) := h.chain_whole hlt hspan
  cases h with
  | imports =>
    cases hx
    exact hwhole _ rfl
  | exports ht _ hk hi => exact hi.chain (isAt_iff.2 ⟨_, ht, hk⟩) hx hwhole

theorem chain_itemEdits {rs : List Reading} {x : Context} {es : List Edit} {i n : Nat}
    (hreads : ∀ r ∈ rs, s.Reads r) (hlt : ∀ r ∈ rs, r.first < r.next) (hfirst : ∀ r ∈ rs, i ≤ r.first)
    (hnext : ∀ r ∈ rs, r.next ≤ n) (hordered : rs.Pairwise fun r r' => r.next ≤ r'.first) (hin : i ≤ n)
    (h : (x.itemEdits (rs.map (·.item))).toExcept = .ok es) :
    s.Chain (fun a b => ∃ r ∈ rs, s.Part r a b) i n (es.map (·.span)) := by
  induction rs generalizing i es with
  | nil =>
    cases h
    exact .nil hin
  | cons r rs ih =>
    obtain ⟨first, rest, hchanges, hrest, rfl⟩ := Progress.cons_of_collect h
    obtain ⟨changes, hx, rfl⟩ := map_eq_ok_iff.1 hchanges
    obtain ⟨hbefore, hordered⟩ := List.pairwise_cons.1 hordered
    have hr := (hreads r List.mem_cons_self).chain (hlt r List.mem_cons_self) hx
    have htail := ih (fun r' hr' => hreads r' (List.mem_cons_of_mem r hr'))
      (fun r' hr' => hlt r' (List.mem_cons_of_mem r hr')) hbefore
      (fun r' hr' => hnext r' (List.mem_cons_of_mem r hr')) hordered (hnext r List.mem_cons_self) hrest
    rw [List.map_append, List.map_map]
    refine Chain.append ?_ (htail.mono fun a b ⟨r', hr', hp⟩ => ⟨r', List.mem_cons_of_mem r hr', hp⟩)
    exact (hr.mono_left (hfirst r List.mem_cons_self)).mono fun a b hp => ⟨r, List.mem_cons_self, hp⟩

end Stream

end ModuleLowering
