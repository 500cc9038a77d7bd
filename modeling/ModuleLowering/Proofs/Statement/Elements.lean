import ModuleLowering.Proofs.Scan.Classes
import ModuleLowering.Proofs.Statement.Passage
import ModuleLowering.Statement.Declarator

namespace ModuleLowering

structure BindingElement where
  inObject : Bool
  start : Nat
  deriving DecidableEq

namespace Stream

def targetOf (s : Stream) (e : BindingElement) : Nat := s.elementTarget e.inObject e.start

def boundName? (s : Stream) (e : BindingElement) : Option String := s.identifier? (s.targetOf e)

def opensPattern (s : Stream) (i : Nat) : Bool := s.isAt i .openBrace || s.isAt i .openBracket

mutual

def patternElements (s : Stream) (i : Nat) : List BindingElement :=
  match _h : s.tokens[i]?, s.closer? i with
  | some t, some stop =>
    if s.opensPattern i then s.elementsFrom (t.kind = .openBrace) (t.depth + 1) (i + 1) stop else []
  | _, _ => []
termination_by 2 * (s.tokens.size - i)
decreasing_by
  have := (Array.getElem?_eq_some_iff.1 ‹_›).1
  omega

def elementsFrom (s : Stream) (inObject : Bool) (depth i stop : Nat) : List BindingElement :=
  if i < stop ∧ i < s.tokens.size then
    let target := s.elementTarget inObject i
    ⟨inObject, i⟩ :: (s.patternElements target ++
      s.elementsFrom inObject depth (s.commaAtDepth depth target stop + 1) stop)
  else []
termination_by 2 * (s.tokens.size - i) + 1
decreasing_by
  · have : i ≤ target := s.le_elementTarget inObject i
    omega
  · have := s.le_elementTarget inObject i
    have := s.le_commaAtDepth depth (s.elementTarget inObject i) stop
    omega

end

def declaredElements (s : Stream) (i : Nat) : List BindingElement :=
  match _h : s.declaratorTarget? i with
  | none => []
  | some (_, _, j) =>
    match _e : s.initializer j with
    | .error _ => []
    | .ok (_, k) =>
      ⟨false, i⟩ :: (s.patternElements i ++ if s.isAt k .comma then s.declaredElements (k + 1) else [])
termination_by s.tokens.size - i
decreasing_by
  have := lt_of_declaratorTarget? ‹_›
  have := le_of_initializer ‹_›
  omega

variable {s : Stream}

theorem le_targetOf (e : BindingElement) : e.start ≤ s.targetOf e := s.le_elementTarget e.inObject e.start

theorem patternElements_of_not {i : Nat} (h : s.opensPattern i = false) : s.patternElements i = [] := by
  rw [patternElements]
  split
  · rw [if_neg (by rw [h]; nofun)]
  · rfl

theorem patternElements_of_closer? {i stop : Nat} {t : Token} (ht : s.tokens[i]? = some t)
    (hstop : s.closer? i = some stop) (hopens : s.opensPattern i) :
    s.patternElements i = s.elementsFrom (t.kind = .openBrace) (t.depth + 1) (i + 1) stop := by
  rw [patternElements]
  split
  · rename_i ht' hstop'
    rw [ht] at ht'
    rw [hstop] at hstop'
    cases ht'
    cases hstop'
    rw [if_pos hopens]
  · rename_i hnot
    exact (hnot t stop ht hstop).elim

theorem exists_of_mem_patternElements {i : Nat} {e : BindingElement} (h : e ∈ s.patternElements i) :
    ∃ t stop, s.tokens[i]? = some t ∧ s.closer? i = some stop ∧ s.opensPattern i ∧
      e ∈ s.elementsFrom (t.kind = .openBrace) (t.depth + 1) (i + 1) stop := by
  rw [patternElements] at h
  split at h
  · rename_i t stop ht hstop
    split at h
    · exact ⟨t, stop, ht, hstop, ‹_›, h⟩
    · cases h
  · cases h

theorem identifier?_eq_none {i : Nat} (h : s.kind? i ≠ some .identifier) : s.identifier? i = none := by
  refine Option.bind_eq_none_iff.2 fun t ht => if_neg fun hk => h ?_
  rw [kind?, ht, ← hk]
  rfl

mutual

theorem patternNames_eq {i : Nat} (hopens : s.opensPattern i) :
    s.patternNames i = (s.patternElements i).filterMap s.boundName? := by
  rw [patternNames]
  split
  · rename_i ht hstop
    have := lt_size_of_getElem? ht
    rw [patternElements_of_closer? ht hstop hopens]
    exact elementNames_eq _ _ _ _
  · rename_i hnot
    rw [patternElements]
    split
    · rename_i t stop ht hstop
      exact (hnot t stop ht hstop).elim
    · rfl
termination_by 2 * (s.tokens.size - i)

theorem elementNames_eq (inObject : Bool) (depth i stop : Nat) :
    s.elementNames inObject depth i stop = (s.elementsFrom inObject depth i stop).filterMap s.boundName? := by
  rw [elementNames, elementsFrom]
  split
  · have htarget := s.le_elementTarget inObject i
    have hcomma := s.le_commaAtDepth depth (s.elementTarget inObject i) stop
    have hname : s.boundName? ⟨inObject, i⟩ = s.identifier? (s.elementTarget inObject i) := rfl
    dsimp only
    rw [elementNames_eq, List.filterMap_cons, List.filterMap_append, hname]
    split
    · rename_i hkind
      rw [patternElements_of_not (by simp [opensPattern, isAt, hkind])]
      cases s.identifier? (s.elementTarget inObject i) <;> rfl
    · rename_i hkind
      rw [identifier?_eq_none (by rw [hkind]; nofun), patternNames_eq (by simp [opensPattern, isAt, hkind])]
    · rename_i hkind
      rw [identifier?_eq_none (by rw [hkind]; nofun), patternNames_eq (by simp [opensPattern, isAt, hkind])]
    · rename_i hname hbrace hbracket
      rw [identifier?_eq_none hname, patternElements_of_not (by simpa [opensPattern, isAt] using ⟨hbrace, hbracket⟩)]
      rfl
  · rfl
termination_by 2 * (s.tokens.size - i) + 1

end

theorem declaredElements_eq {i j k : Nat} {names : List String} {simple : Bool} {equalsEnd : Option Nat}
    (htarget : s.declaratorTarget? i = some (names, simple, j)) (hinit : s.initializer j = .ok (equalsEnd, k)) :
    s.declaredElements i =
      ⟨false, i⟩ :: (s.patternElements i ++ if s.isAt k .comma then s.declaredElements (k + 1) else []) := by
  rw [declaredElements]
  split
  · rename_i hnone
    rw [htarget] at hnone
    cases hnone
  · rename_i htarget'
    rw [htarget] at htarget'
    cases htarget'
    split
    · rename_i herror
      rw [hinit] at herror
      cases herror
    · rename_i hinit'
      rw [hinit] at hinit'
      cases hinit'
      rfl

theorem targetOf_of_not_ellipsis {i : Nat} (h : s.isAt i .ellipsis = false) : s.targetOf ⟨false, i⟩ = i := by
  simp [targetOf, elementTarget, h]

theorem not_isAt_of_opensPattern {i : Nat} (h : s.opensPattern i) {kind : Kind} (hbrace : kind ≠ .openBrace)
    (hbracket : kind ≠ .openBracket) : s.isAt i kind = false := by
  rw [← Bool.not_eq_true]
  intro hkind
  obtain hi | hi := Bool.or_eq_true_iff.1 h
  · exact hbrace (kind_eq_of_isAt hkind hi)
  · exact hbracket (kind_eq_of_isAt hkind hi)

theorem declaratorTarget?_cases {i j : Nat} {names : List String} {simple : Bool}
    (h : s.declaratorTarget? i = some (names, simple, j)) :
    (∃ t, s.tokens[i]? = some t ∧ t.kind = .identifier ∧ names = [t.text] ∧ j = i + 1) ∨
      ∃ stop, s.closer? i = some stop ∧ s.opensPattern i ∧ names = s.patternNames i ∧ j = stop + 1 := by
  unfold declaratorTarget? at h
  split at h
  · cases h
  · rename_i t ht
    split at h
    · cases h
      exact .inl ⟨t, ht, ‹_›, rfl, rfl⟩
    · rename_i hk
      obtain ⟨stop, hstop, he⟩ := Option.map_eq_some_iff.1 h
      cases he
      exact .inr ⟨stop, hstop, by simp [opensPattern, isAt_iff.2 ⟨t, ht, hk⟩], rfl, rfl⟩
    · rename_i hk
      obtain ⟨stop, hstop, he⟩ := Option.map_eq_some_iff.1 h
      cases he
      exact .inr ⟨stop, hstop, by simp [opensPattern, isAt_iff.2 ⟨t, ht, hk⟩], rfl, rfl⟩
    · cases h

theorem targetOf_declarator {i j : Nat} {names : List String} {simple : Bool}
    (h : s.declaratorTarget? i = some (names, simple, j)) : s.targetOf ⟨false, i⟩ = i := by
  rcases declaratorTarget?_cases h with ⟨t, ht, hk, _⟩ | ⟨_, _, hopens, _⟩
  · exact targetOf_of_not_ellipsis (by simp [isAt, kind?, ht, hk])
  · exact targetOf_of_not_ellipsis (not_isAt_of_opensPattern hopens (by decide) (by decide))

theorem names_of_declaratorTarget? {i j : Nat} {names : List String} {simple : Bool}
    (h : s.declaratorTarget? i = some (names, simple, j)) :
    names = (⟨false, i⟩ :: s.patternElements i : List BindingElement).filterMap s.boundName? := by
  rw [List.filterMap_cons, boundName?, targetOf_declarator h]
  rcases declaratorTarget?_cases h with ⟨t, ht, hk, rfl, _⟩ | ⟨_, _, hopens, rfl, _⟩
  · have hnot : s.opensPattern i = false := by simp [opensPattern, isAt, kind?, ht, hk]
    rw [patternElements_of_not hnot]
    simp [identifier?, ht, hk]
  · have hnot : s.isAt i .identifier = false := not_isAt_of_opensPattern hopens (by decide) (by decide)
    rw [identifier?_eq_none (of_decide_eq_false hnot), patternNames_eq hopens]

theorem names_eq {i j : Nat} {ds : List Declarator} (h : s.declarators i = .ok (ds, j)) :
    ds.flatMap (·.names) = (s.declaredElements i).filterMap s.boundName? := by
  fun_induction declarators s i generalizing ds j with
  | case1 => cases h
  | case2 => cases h
  | case3 i names simple n ht equalsEnd k hi _ hcomma =>
    rename_i ih
    obtain ⟨⟨rest, n'⟩, hn, he⟩ := map_eq_ok_iff.1 h
    cases he
    rw [declaredElements_eq ht hi, if_pos hcomma, List.flatMap_cons, ih hn, ← List.cons_append, List.filterMap_append,
      ← names_of_declaratorTarget? ht]
  | case4 i names simple n ht equalsEnd k hi _ =>
    rename_i hcomma
    cases h
    rw [declaredElements_eq ht hi, if_neg hcomma, List.append_nil, ← names_of_declaratorTarget? ht,
      List.flatMap_singleton]

theorem commaAtDepth_spec {depth i stop : Nat} (h : s.commaAtDepth depth i stop < stop) :
    s.isAt (s.commaAtDepth depth i stop) .comma ∧ s.depthAt (s.commaAtDepth depth i stop) = depth ∧
      ∀ k, i ≤ k → k < s.commaAtDepth depth i stop → s.isAt k .comma → s.depthAt k ≠ depth := by
  fun_induction commaAtDepth s depth i stop with
  | case1 i hi hcomma =>
    obtain ⟨t, ht, hk⟩ := (Option.any_eq_true _ _).1 hcomma
    simp only [Bool.and_eq_true, decide_eq_true_eq] at hk
    exact ⟨isAt_iff.2 ⟨t, ht, hk.1⟩, (depthAt_eq ht).trans hk.2, fun k hik hki => by omega⟩
  | case2 i hi hnot ih =>
    obtain ⟨hcomma, hdepth, hfirst⟩ := ih h
    refine ⟨hcomma, hdepth, fun k hik hkc hk hd => ?_⟩
    rcases Nat.lt_or_eq_of_le hik with hik | rfl
    · exact hfirst k hik hkc hk hd
    · obtain ⟨t, ht, hkind⟩ := isAt_iff.1 hk
      rw [depthAt_eq ht] at hd
      exact hnot (by simpa [ht, hkind] using hd)
  | case3 => omega

structure BeginsIn (s : Stream) (o stop : Nat) (e : BindingElement) : Prop where
  closer : s.closer? o = some stop
  bracket : s.isAt o (if e.inObject then .openBrace else .openBracket)
  lt_stop : e.start < stop
  place : e.start = o + 1 ∨ ∃ c, e.start = c + 1 ∧ o < c ∧ s.isAt c .comma ∧ s.depthAt c = s.depthAt o + 1

theorem BeginsIn.lt_start {o stop : Nat} {e : BindingElement} (h : s.BeginsIn o stop e) : o < e.start := by
  rcases h.place with hstart | ⟨c, hstart, hoc, _⟩ <;> omega

mutual

theorem lt_start_of_mem_patternElements {i : Nat} {e : BindingElement} (h : e ∈ s.patternElements i) : i < e.start := by
  obtain ⟨t, stop, ht, _, _, h⟩ := exists_of_mem_patternElements h
  have := lt_size_of_getElem? ht
  exact le_start_of_mem_elementsFrom h
termination_by 2 * (s.tokens.size - i)

theorem le_start_of_mem_elementsFrom {inObject : Bool} {depth i stop : Nat} {e : BindingElement}
    (h : e ∈ s.elementsFrom inObject depth i stop) : i ≤ e.start := by
  rw [elementsFrom] at h
  split at h
  · have htarget := s.le_elementTarget inObject i
    have hcomma := s.le_commaAtDepth depth (s.elementTarget inObject i) stop
    dsimp only at h
    rcases List.mem_cons.1 h with rfl | h
    · exact Nat.le_refl i
    rcases List.mem_append.1 h with h | h
    · have := lt_start_of_mem_patternElements h
      omega
    · have := le_start_of_mem_elementsFrom h
      omega
  · cases h
termination_by 2 * (s.tokens.size - i) + 1

end

mutual

theorem beginsIn_of_mem_patternElements {i : Nat} {e : BindingElement} (h : e ∈ s.patternElements i) :
    ∃ o stop, s.BeginsIn o stop e := by
  obtain ⟨t, stop, ht, hstop, hopens, h⟩ := exists_of_mem_patternElements h
  have hlt := lt_size_of_getElem? ht
  rw [← depthAt_eq ht] at h
  refine beginsIn_of_mem_elementsFrom hstop ?_ (fun _ => .inl rfl) h
  obtain hk | hk : t.kind = .openBrace ∨ t.kind = .openBracket := by
    simpa [opensPattern, isAt, kind?, ht] using hopens
  · simp [isAt, kind?, ht, hk]
  · simp [isAt, kind?, ht, hk]
termination_by 2 * (s.tokens.size - i)

theorem beginsIn_of_mem_elementsFrom {inObject : Bool} {o i stop : Nat} {e : BindingElement}
    (hclose : s.closer? o = some stop) (hbracket : s.isAt o (if inObject then .openBrace else .openBracket))
    (hplace : i < stop → i = o + 1 ∨ ∃ c, i = c + 1 ∧ o < c ∧ s.isAt c .comma ∧ s.depthAt c = s.depthAt o + 1)
    (h : e ∈ s.elementsFrom inObject (s.depthAt o + 1) i stop) : ∃ o stop, s.BeginsIn o stop e := by
  rw [elementsFrom] at h
  split at h
  · rename_i hi
    have htarget := s.le_elementTarget inObject i
    have hcomma := s.le_commaAtDepth (s.depthAt o + 1) (s.elementTarget inObject i) stop
    dsimp only at h
    rcases List.mem_cons.1 h with rfl | h
    · exact ⟨o, stop, hclose, hbracket, hi.1, hplace hi.1⟩
    rcases List.mem_append.1 h with h | h
    · exact beginsIn_of_mem_patternElements h
    · have hoi : o < i := by rcases hplace hi.1 with rfl | ⟨c, rfl, hc, _⟩ <;> omega
      refine beginsIn_of_mem_elementsFrom hclose hbracket (fun hstop => ?_) h
      obtain ⟨hat, hdepth, _⟩ := commaAtDepth_spec (Nat.lt_of_succ_lt hstop)
      exact .inr ⟨_, rfl, by omega, hat, hdepth⟩
  · cases h
termination_by 2 * (s.tokens.size - i) + 1

end

end Stream

end ModuleLowering
