import ModuleLowering.Proofs.Scan.Brackets
import ModuleLowering.Proofs.Scan.Placement

/-!
Template substitutions: each reaches from the chunk that opens it to the next chunk of its depth, and around a
token of some depth there is an open bracket or substitution of every smaller one.
-/

namespace ModuleLowering

def Token.level (t : Token) : Kind × Nat := (t.kind, t.depth)

def Kind.opensSubstitution : Kind → Bool
  | templateHead | templateMiddle => true
  | _ => false

def Kind.closesSubstitution : Kind → Bool
  | templateMiddle | templateTail => true
  | _ => false

/-- A substitution: two chunks of the same depth, and only deeper tokens between them. -/
structure Substitution (levels : List (Kind × Nat)) (c d : Nat) : Prop where
  lt : c < d
  chunks : ∃ a b depth, levels[c]? = some (a, depth) ∧ a.opensSubstitution ∧ levels[d]? = some (b, depth) ∧
    b.closesSubstitution ∧ ∀ k x n, c < k → k < d → levels[k]? = some (x, n) → depth < n

/-- A bracket or chunk of depth `m` before `k` after which everything up to `k` is deeper. -/
structure Encloses (levels : List (Kind × Nat)) (m i k : Nat) : Prop where
  lt : i < k
  opener : ∃ a, levels[i]? = some (a, m) ∧ (a.isOpener ∨ a.opensSubstitution)
  deeper : ∀ l x n, i < l → l ≤ k → levels[l]? = some (x, n) → m < n

theorem Substitution.append {levels : List (Kind × Nat)} {c d : Nat} (h : Substitution levels c d)
    (more : List (Kind × Nat)) : Substitution (levels ++ more) c d := by
  obtain ⟨a, b, depth, ha, hopens, hb, hcloses, hinner⟩ := h.chunks
  have hc := (List.getElem?_eq_some_iff.1 ha).1
  have hd := (List.getElem?_eq_some_iff.1 hb).1
  refine ⟨h.lt, a, b, depth, ?_, hopens, ?_, hcloses, ?_⟩
  · rw [List.getElem?_append_left hc, ha]
  · rw [List.getElem?_append_left hd, hb]
  · intro k x n hck hkd hk
    rw [List.getElem?_append_left (by omega)] at hk
    exact hinner k x n hck hkd hk

theorem Encloses.append {levels : List (Kind × Nat)} {m i k : Nat} (h : Encloses levels m i k)
    (hk : k < levels.length) (more : List (Kind × Nat)) : Encloses (levels ++ more) m i k := by
  have hlt := h.lt
  refine ⟨h.lt, ?_, ?_⟩
  · rw [List.getElem?_append_left (by omega)]
    exact h.opener
  · intro l x n hil hlk hl
    rw [List.getElem?_append_left (by omega)] at hl
    exact h.deeper l x n hil hlk hl

structure Nested (levels : List (Kind × Nat)) (fs : List Frame) : Prop where
  enclosed : ∀ k x n, levels[k]? = some (x, n) → ∀ m < n, ∃ i, Encloses levels m i k
  closed : ∀ c a n, levels[c]? = some (a, n) → a.opensSubstitution →
    (∃ d, Substitution levels c d) ∨ ∃ waiting, .group .templateExpr c waiting ∈ fs

theorem nested_empty : Nested [] [] := ⟨by simp, by simp⟩

theorem Region.Opens.isOpener_or {region : Region} {kind : Kind} (h : region.Opens kind) :
    kind.isOpener ∨ kind.opensSubstitution := by
  cases region with
  | topLevel | jsxTag | jsxChildren => cases h
  | templateExpr => rcases h with rfl | rfl <;> exact .inr rfl
  | _ => obtain rfl := h; exact .inl rfl

theorem Region.Opens.eq_templateExpr {region : Region} {kind : Kind} (h : region.Opens kind)
    (hk : kind.opensSubstitution) : region = .templateExpr := by
  cases region with
  | topLevel | jsxTag | jsxChildren => cases h
  | templateExpr => rfl
  | _ => obtain rfl := h; cases hk

theorem Opened.exists_opener {tokens : Array Token} {fs : List Frame} (h : Opened tokens fs) {m : Nat}
    (hm : m < frameDepth fs) : ∃ (i : Nat) (a : Token), tokens[i]? = some a ∧ a.depth = m ∧
      (a.kind.isOpener ∨ a.kind.opensSubstitution) ∧
      ∀ (l : Nat) (u : Token), i < l → tokens[l]? = some u → m < u.depth := by
  induction fs with
  | nil => cases hm
  | cons f fs ih =>
    cases f with
    | group region opener waiting =>
      obtain ⟨⟨a, ha, hopens, _, _, hdepth, _⟩, hdeep, hrest⟩ := h
      rw [frameDepth_group] at hm
      by_cases heq : m = frameDepth fs
      · subst heq
        exact ⟨opener, a, ha, hdepth, hopens.isOpener_or, hdeep⟩
      · exact ih hrest (by omega)
    | tag closing => exact ih h (by simpa using hm)
    | children => exact ih h (by simpa using hm)

theorem Moves.depth_le {index : Nat} {t : Token} {fs gs : List Frame} (h : Moves index t fs gs) :
    t.depth ≤ frameDepth fs := by
  cases h <;> simp_all

theorem Kind.isStructural_of_opensSubstitution {kind : Kind} (h : kind.opensSubstitution = true) :
    kind.isStructural = true := by
  cases kind <;> first | rfl | cases h

theorem Region.opensSubstitution_of_closer? {region : Region} {kind : Kind} (h : region.closer? = some kind) :
    kind.opensSubstitution = false := by
  cases region <;> cases h <;> rfl

theorem Moves.opens_of_opensSubstitution {index : Nat} {t : Token} {fs gs : List Frame}
    (h : Moves index t fs gs) (hk : t.kind.opensSubstitution) :
    ∃ waiting hs, gs = .group .templateExpr index waiting :: hs := by
  cases h with
  | stays hs => rw [Kind.isStructural_of_opensSubstitution hk] at hs; cases hs
  | opens region waiting ho => exact ⟨waiting, fs, by rw [ho.eq_templateExpr hk]⟩
  | closes region _ _ hc => rw [Region.opensSubstitution_of_closer? hc] at hk; cases hk
  | leaves _ _ ht => rw [ht] at hk; cases hk
  | reenters _ _ waiting => exact ⟨waiting, _, rfl⟩
  | beginsTag closing ht => cases closing <;> rw [ht] at hk <;> cases hk
  | endsOpeningTag ht | endsElement ht | endsEmptyElement ht => rw [ht] at hk; cases hk

def levels (tokens : Array Token) : List (Kind × Nat) := tokens.toList.map Token.level

theorem getElem?_levels (tokens : Array Token) (i : Nat) : (levels tokens)[i]? = tokens[i]?.map Token.level := by
  rw [levels, List.getElem?_map, Array.getElem?_toList]

theorem exists_of_levels {tokens : Array Token} {i n : Nat} {x : Kind} (h : (levels tokens)[i]? = some (x, n)) :
    ∃ u, tokens[i]? = some u ∧ u.kind = x ∧ u.depth = n := by
  rw [getElem?_levels] at h
  obtain ⟨u, hu, hlevel⟩ := Option.map_eq_some_iff.1 h
  exact ⟨u, hu, congrArg Prod.fst hlevel, congrArg Prod.snd hlevel⟩

theorem levels_of_getElem? {tokens : Array Token} {i : Nat} {t : Token} (h : tokens[i]? = some t) :
    (levels tokens)[i]? = some (t.kind, t.depth) := by
  rw [getElem?_levels, h]
  rfl

@[simp] theorem length_levels (tokens : Array Token) : (levels tokens).length = tokens.size := by
  simp [levels]

theorem levels_record (tokens : Array Token) (t : Token) :
    levels (Scanner.record tokens t) = levels tokens ++ [(t.kind, t.depth)] :=
  map_record Token.level (fun _ _ => rfl) tokens t

theorem of_levels_record {tokens : Array Token} {t : Token} {k n : Nat} {x : Kind}
    (h : (levels (Scanner.record tokens t))[k]? = some (x, n)) :
    (k < tokens.size ∧ (levels tokens)[k]? = some (x, n)) ∨ (k = tokens.size ∧ x = t.kind ∧ n = t.depth) := by
  rw [levels_record] at h
  by_cases hlt : k < (levels tokens).length
  · rw [List.getElem?_append_left hlt] at h
    exact .inl ⟨by simpa using hlt, h⟩
  · rw [List.getElem?_append_right (Nat.le_of_not_lt hlt), List.getElem?_singleton] at h
    split at h
    · rename_i hzero
      cases h
      rw [length_levels] at hlt hzero
      exact .inr ⟨by omega, rfl, rfl⟩
    · cases h

namespace Nested

variable {tokens : Array Token} {t : Token} {fs gs : List Frame}

theorem enclosed_record (h : Nested (levels tokens) fs) (hb : Bracketed tokens fs)
    (hm : Moves tokens.size t fs gs) {k n : Nat} {x : Kind}
    (hk : (levels (Scanner.record tokens t))[k]? = some (x, n)) {m : Nat} (hmn : m < n) :
    ∃ i, Encloses (levels (Scanner.record tokens t)) m i k := by
  rcases of_levels_record hk with ⟨hlt, hk⟩ | ⟨rfl, rfl, rfl⟩
  · obtain ⟨i, hi⟩ := h.enclosed k x n hk m hmn
    rw [levels_record]
    exact ⟨i, hi.append (by simpa using hlt) _⟩
  · obtain ⟨i, a, ha, hdepth, hopens, hdeeper⟩ := hb.opened.exists_opener (Nat.lt_of_lt_of_le hmn hm.depth_le)
    have hi := lt_size_of_getElem? ha
    refine ⟨i, hi, ⟨a.kind, ?_, hopens⟩, ?_⟩
    · rw [levels_record, List.getElem?_append_left (by simpa using hi), levels_of_getElem? ha, hdepth]
    · intro l y p hil _ hl
      rcases of_levels_record hl with ⟨_, hl⟩ | ⟨_, _, rfl⟩
      · obtain ⟨u, hu, _, rfl⟩ := exists_of_levels hl
        exact hdeeper l u hil hu
      · exact hmn

theorem substitution_record {c waiting : Nat} (hb : Bracketed tokens (.group .templateExpr c waiting :: fs))
    (hk : t.kind.closesSubstitution) (hd : t.depth = frameDepth fs) :
    Substitution (levels (Scanner.record tokens t)) c tokens.size := by
  obtain ⟨⟨a, ha, hopens, _, _, hdepth, _⟩, hdeep, _⟩ := hb.opened
  have hc := lt_size_of_getElem? ha
  have hkind : a.kind.opensSubstitution := by rcases hopens with hopens | hopens <;> rw [hopens] <;> rfl
  refine ⟨hc, a.kind, t.kind, frameDepth fs, ?_, hkind, ?_, hk, ?_⟩
  · rw [levels_record, List.getElem?_append_left (by simpa using hc), levels_of_getElem? ha, hdepth]
  · rw [levels_record, List.getElem?_append_right (by simp)]
    simp [hd]
  · intro k x n hck hk hx
    rcases of_levels_record hx with ⟨_, hx⟩ | ⟨rfl, _⟩
    · obtain ⟨u, hu, _, rfl⟩ := exists_of_levels hx
      exact hdeep k u hck hu
    · omega

theorem closed_record (h : Nested (levels tokens) fs) (hb : Bracketed tokens fs)
    (hm : Moves tokens.size t fs gs) {c n : Nat} {x : Kind}
    (hc : (levels (Scanner.record tokens t))[c]? = some (x, n)) (hx : x.opensSubstitution) :
    (∃ d, Substitution (levels (Scanner.record tokens t)) c d) ∨
      ∃ waiting, .group .templateExpr c waiting ∈ gs := by
  rcases of_levels_record hc with ⟨_, hc⟩ | ⟨rfl, rfl, rfl⟩
  · rcases h.closed c x n hc hx with ⟨d, hd⟩ | ⟨waiting, hmem⟩
    · rw [levels_record]
      exact .inl ⟨d, hd.append _⟩
    · cases hm with
      | stays => exact .inr ⟨waiting, hmem⟩
      | opens | beginsTag => exact .inr ⟨waiting, List.mem_cons_of_mem _ hmem⟩
      | closes region _ _ hcloser =>
        rcases List.mem_cons.1 hmem with heq | hmem
        · cases heq
          cases hcloser
        · exact .inr ⟨waiting, hmem⟩
      | leaves opener _ hk _ hd =>
        rcases List.mem_cons.1 hmem with heq | hmem
        · cases heq
          exact .inl ⟨_, substitution_record hb (by rw [hk]; rfl) hd⟩
        · exact .inr ⟨waiting, hmem⟩
      | reenters opener _ _ hk _ _ hd =>
        rcases List.mem_cons.1 hmem with heq | hmem
        · cases heq
          exact .inl ⟨_, substitution_record hb (by rw [hk]; rfl) hd⟩
        · exact .inr ⟨waiting, List.mem_cons_of_mem _ hmem⟩
      | endsOpeningTag | endsElement | endsEmptyElement => exact .inr ⟨waiting, by simpa using hmem⟩
  · obtain ⟨waiting, hs, rfl⟩ := hm.opens_of_opensSubstitution hx
    exact .inr ⟨waiting, List.mem_cons_self⟩

theorem record (h : Nested (levels tokens) fs) (hb : Bracketed tokens fs) (hm : Moves tokens.size t fs gs) :
    Nested (levels (Scanner.record tokens t)) gs where
  enclosed _ _ _ hk _ hmn := h.enclosed_record hb hm hk hmn
  closed _ _ _ hc hx := h.closed_record hb hm hc hx

end Nested

theorem Scanner.nested_step {s t : Scanner} {more : Bool} (hb : Bracketed s.tokens s.nesting.frames)
    (h : Nested (levels s.tokens) s.nesting.frames) (hstep : s.step = .ok (t, more)) :
    Nested (levels t.tokens) t.nesting.frames := by
  cases more with
  | false =>
    obtain ⟨htokens, hnesting⟩ := step_end hstep
    rwa [htokens, hnesting]
  | true =>
    obtain ⟨u, htokens, hmoves⟩ := step_moves hstep
    rw [htokens]
    exact h.record hb hmoves

theorem Stream.nested_of_read {source : List Char} {r : Stream} (h : Stream.read source = .ok r) :
    Nested (levels r.tokens) [] := by
  obtain ⟨t, ht, hf, rfl⟩ := Stream.read_eq_ok h
  have hstart : Bracketed (Scanner.start source).tokens (Scanner.start source).nesting.frames ∧
      Nested (levels (Scanner.start source).tokens) (Scanner.start source).nesting.frames :=
    ⟨bracketed_empty, nested_empty⟩
  have hrun := Scanner.run_induction
    (P := fun u => Bracketed u.tokens u.nesting.frames ∧ Nested (levels u.tokens) u.nesting.frames)
    (fun _ _ _ hu hstep => ⟨Scanner.bracketed_step hu.1 hstep, Scanner.nested_step hu.1 hu.2 hstep⟩) hstart ht
  rw [hf] at hrun
  exact hrun.1.2

end ModuleLowering
