import ModuleLowering.Proofs.Lexeme.Lookahead
import ModuleLowering.Proofs.Role.Relocation
import ModuleLowering.Proofs.Scan.LineBreaks

namespace ModuleLowering

open Text

inductive Filler : List Char → Prop
  | nil : Filler []
  | space {cs} (hcs : Filler cs) : Filler (' ' :: cs)
  | comment {body cs} (hbody : ¬ ['*', '/'] <:+: body) (hline : ∀ c ∈ body, isLineBreak c = false) (hcs : Filler cs) :
      Filler ('/' :: '*' :: body ++ '*' :: '/' :: cs)

namespace Filler

variable {cs : List Char}

theorem trivia (h : Filler cs) : Trivia False cs := by
  induction h with
  | nil => exact .nil
  | space _ ih => exact .blank (by decide) ih
  | comment hbody _ _ ih => exact .blockComment hbody ih

theorem not_breaksLine (h : Filler cs) : ¬ BreaksLine cs := by
  have hnone : ∀ c ∈ cs, isLineBreak c = false := by
    induction h with
    | nil => simp
    | space _ ih => exact List.forall_mem_cons.2 ⟨by decide, ih⟩
    | comment _ hline _ ih =>
      simp only [List.cons_append, List.forall_mem_cons, List.forall_mem_append]
      exact ⟨by decide, by decide, hline, by decide, by decide, ih⟩
  intro hbreaks
  obtain ⟨c, hc, hbreak⟩ := hbreaks.exists_mem
  rw [hnone c hc] at hbreak
  cases hbreak

end Filler

namespace Gap

theorem extend_eq_self_iff {gap : Gap} {c : Char} {rest : List Char} : gap.extend (c :: rest) = .ok gap ↔
    isLineBreak c = false ∧ isBlank c = false ∧ ¬ (c = '/' ∧ (rest.head? = some '/' ∨ rest.head? = some '*')) := by
  have hgrows {g : Gap} {text : List Char} (hlt : gap.length < g.length) : g.extend text ≠ .ok gap := fun h =>
    absurd (le_length_of_extend h) (by omega)
  by_cases hcomment : c = '/' ∧ (rest.head? = some '/' ∨ rest.head? = some '*')
  · refine iff_of_false ?_ fun h => h.2.2 hcomment
    obtain ⟨rfl, hhead | hhead⟩ := hcomment
    · obtain ⟨rest, rfl⟩ := List.head?_eq_some_iff.1 hhead
      rw [extend]
      exact hgrows (by dsimp only; omega)
    · obtain ⟨rest, rfl⟩ := List.head?_eq_some_iff.1 hhead
      rw [extend]
      cases commentLength rest with
      | none => simp
      | some n => exact hgrows (by dsimp only; omega)
  · rw [extend_of_not_comment hcomment]
    split
    · rename_i hbreak
      exact iff_of_false (hgrows (Nat.lt_succ_self _)) (by simp [hbreak])
    · split
      · rename_i hblank
        exact iff_of_false (hgrows (Nat.lt_succ_self _)) (by simp [hblank])
      · simp_all

end Gap

theorem Filler.read_append {taken : List Char} (h : Filler taken) (rest : List Char) :
    Gap.read (taken ++ rest) = Gap.extend ⟨taken.length, false⟩ rest := by
  obtain ⟨breaks, hbreaks, hextend⟩ := Gap.extend_append h.trivia
  obtain rfl : breaks = false := by simpa [h.not_breaksLine] using hbreaks
  rw [Gap.read, hextend]
  simp [Gap.empty]

theorem Filler.read_eq {taken other : List Char} (h : Filler taken) (hother : Filler other) {c : Char}
    {rest : List Char} {gap : Gap} (hread : Gap.read (taken ++ c :: rest) = .ok gap)
    (hlength : gap.length = taken.length) :
    gap.lineBreak = false ∧ Gap.read (other ++ c :: rest) = .ok ⟨other.length, false⟩ := by
  rw [h.read_append] at hread
  obtain rfl := Gap.eq_of_extend hread hlength
  rw [hother.read_append]
  exact ⟨rfl, Gap.extend_eq_self_iff.2 (Gap.extend_eq_self_iff.1 hread)⟩

namespace Scanner

theorem gap_of_read {s : Scanner} (hframes : ∀ frames, s.nesting.frames ≠ .children :: frames) {gap : Gap}
    (h : Gap.read s.rest = .ok gap) : s.gap = .ok gap := by
  unfold Scanner.gap
  split
  · rename_i frames hchildren
    exact absurd hchildren (hframes frames)
  · rw [h]

theorem gap_alike {s s' : Scanner} {gap : Gap} (h : s.gap = .ok gap) {c : Char} {x y : List Char}
    (hrest : s.rest.drop gap.length = c :: x) (hrest' : s'.rest = s.rest.take gap.length ++ c :: y)
    (hhead : x.head? = y.head?) (hnesting : s'.nesting = s.nesting) : s'.gap = .ok gap := by
  rcases gap_cases h with ⟨⟨frames, hframes⟩, rfl⟩ | ⟨hframes, hread⟩
  · rw [Scanner.gap, hnesting, hframes]
  · obtain ⟨_, _, hextend⟩ := Gap.of_read hread (hrest ▸ List.cons_ne_nil c x)
    refine gap_of_read (hnesting ▸ hframes) ?_
    rw [hrest', hextend, Gap.extend_eq_self_iff, ← hhead, ← Gap.extend_eq_self_iff, ← hextend, ← hrest,
      List.take_append_drop, hread]

theorem length_le_of_gap {s : Scanner} {gap : Gap} (h : s.gap = .ok gap) : gap.length ≤ s.rest.length := by
  rcases gap_cases h with ⟨_, rfl⟩ | ⟨_, hread⟩
  · exact Nat.zero_le _
  · obtain ⟨taken, rest, htext, hlength, _⟩ := Gap.trivia_of_extend hread
    rw [htext, hlength, List.length_append, show Gap.empty.length = 0 from rfl]
    omega

theorem step_of_gap {s : Scanner} {gap : Gap} {c : Char} {rest : List Char} {l : Lexeme} {p : Place}
    (hgap : s.gap = .ok gap) (hrest : (s.advance gap.length).rest = c :: rest)
    (hl : (s.advance gap.length).lexeme c rest = .ok l)
    (hp : s.nesting.place s.tokens.back? l.kind l.effect s.tokens.size = .ok p) :
    s.step = .ok ((s.advance gap.length).push gap.lineBreak c rest l p, true) := by
  have hp' : (s.advance gap.length).nesting.place (s.advance gap.length).tokens.back? l.kind l.effect
      (s.advance gap.length).tokens.size = .ok p := hp
  simp only [step, bind, Except.bind, hgap, hrest, hl, hp', pure, Except.pure]

theorem step_alike {s t : Scanner} (h : s.step = .ok (t, true)) {v a : List Char} (hrest : s.rest = v ++ ' ' :: a)
    (hlt : a.length < t.rest.length) (b : List Char) : ∃ w, t.rest = w ++ ' ' :: a ∧
      Scanner.step { s with rest := v ++ ' ' :: b } = .ok ({ t with rest := w ++ ' ' :: b }, true) := by
  obtain ⟨gap, hgap, ⟨hmore, _⟩ | ⟨_, c, rest, l, p, hadvance, hl, hp, rfl⟩⟩ := step_cases h
  · cases hmore
  change s.rest.drop gap.length = c :: rest at hadvance
  change a.length < (rest.drop l.extra).length at hlt
  -- The gap and the first character of the token stand before the space.
  obtain ⟨taken, w, rfl, htaken, rfl⟩ : ∃ taken w, v = taken ++ c :: w ∧ taken.length = gap.length ∧
      rest = w ++ ' ' :: a := by
    have hlength := congrArg List.length hadvance
    rw [List.length_drop, hrest, List.length_append, List.length_cons, List.length_cons] at hlength
    rw [List.length_drop] at hlt
    have hinside : gap.length < v.length := by omega
    obtain ⟨d, w, hw⟩ := List.exists_cons_of_length_pos (l := v.drop gap.length) (by rw [List.length_drop]; omega)
    rw [hrest, List.drop_append_of_le_length (Nat.le_of_lt hinside), hw] at hadvance
    cases hadvance
    exact ⟨v.take gap.length, w, by rw [← hw, List.take_append_drop], by simp [Nat.le_of_lt hinside], rfl⟩
  have hextra : l.extra ≤ w.length := by
    rw [List.length_drop, List.length_append, List.length_cons] at hlt
    omega
  have htake (x : List Char) : (taken ++ x).take gap.length = taken := htaken ▸ List.take_left
  have hdrop (x : List Char) : (taken ++ x).drop gap.length = x := htaken ▸ List.drop_left
  have halike : Alike l.extra (w ++ ' ' :: a) (w ++ ' ' :: b) := .space hextra
  have hgap' : Scanner.gap { s with rest := taken ++ c :: w ++ ' ' :: b } = .ok gap := by
    refine gap_alike hgap hadvance ?_ halike.head?_eq rfl
    rw [hrest, List.append_assoc, List.append_assoc, htake, List.cons_append]
  refine ⟨w.drop l.extra, List.drop_append_of_le_length hextra, ?_⟩
  have hadvance' : (taken ++ c :: w ++ ' ' :: b).drop gap.length = c :: (w ++ ' ' :: b) := by
    rw [List.append_assoc, hdrop, List.cons_append]
  rw [step_of_gap hgap' hadvance' (lexeme_alike hl halike rfl rfl) hp]
  simp only [push, advance, hrest, List.append_assoc, htake, List.take_append_of_le_length hextra,
    List.drop_append_of_le_length hextra]

theorem Steps.length_le {s u : Scanner} {n : Nat} (h : Steps s n u) : u.rest.length ≤ s.rest.length := by
  induction h with
  | done => exact Nat.le_refl _
  | more hstep _ ih => exact Nat.le_trans ih (Nat.le_of_lt (rest_length_lt_of_step hstep))

theorem Steps.alike {s u : Scanner} {n : Nat} (h : Steps s n u) {v a : List Char} (hs : s.rest = v ++ ' ' :: a)
    (hu : u.rest = ' ' :: a) (b : List Char) :
    Steps { s with rest := v ++ ' ' :: b } n { u with rest := ' ' :: b } := by
  induction h generalizing v with
  | done s =>
    obtain rfl : v = [] := List.append_left_eq_self.1 (hs.symm.trans hu)
    exact .done _
  | more hstep hsteps ih =>
    have hle := hsteps.length_le
    rw [hu, List.length_cons] at hle
    obtain ⟨w, hw, hstep'⟩ := step_alike hstep hs hle b
    exact .more hstep' (ih hw hu)

def relocate (g : Nat → Nat) (s : Scanner) : Scanner :=
  { s with offset := g s.offset, tokens := s.tokens.map (Token.relocate g) }

def Shifts (g : Nat → Nat) (first : Nat) : Prop := ∀ x n, first ≤ x → g (x + n) = g x + n

theorem relocate_record (g : Nat → Nat) (tokens : Array Token) (t : Token) :
    (record tokens t).map (Token.relocate g) = record (tokens.map (Token.relocate g)) (t.relocate g) := by
  unfold record
  rw [show (t.relocate g).pair = t.pair from rfl, Array.size_map]
  cases t.pair with
  | none => exact Array.map_push
  | some opener =>
    dsimp only
    rw [Array.map_push, map_relocate_modify]
    exact fun _ => rfl

theorem back?_relocate (g : Nat → Nat) (s : Scanner) :
    (s.relocate g).tokens.back? = s.tokens.back?.map (Token.relocate g) := by
  rw [relocate, Array.back?, Array.back?, Array.size_map, Array.getElem?_map]

theorem ofCode_relocate (g : Nat → Nat) (previous : Option Token) :
    Lexeme.ofCode (previous.map (Token.relocate g)) = Lexeme.ofCode previous := by
  cases previous <;> rfl

theorem lexeme_relocate (g : Nat → Nat) {s : Scanner} {c : Char} {rest : List Char} {l : Lexeme}
    (h : s.lexeme c rest = .ok l) : (s.relocate g).lexeme c rest = .ok l := by
  have hmoved : Scanner.lexeme { s with offset := g s.offset } c rest = .ok l := lexeme_alike h (.refl rest) rfl rfl
  rw [← hmoved]
  unfold lexeme
  rw [back?_relocate, ofCode_relocate]
  rfl

theorem place_relocate (g : Nat → Nat) (s : Scanner) (kind : Kind) (effect : Effect) :
    (s.relocate g).nesting.place (s.relocate g).tokens.back? kind effect (s.relocate g).tokens.size =
      s.nesting.place s.tokens.back? kind effect s.tokens.size := by
  rw [show (s.relocate g).tokens.size = s.tokens.size from Array.size_map]
  refine Nesting.place_congr ?_ kind effect s.tokens.size
  rw [back?_relocate, Option.map_map]
  rfl

theorem gap_congr {s s' : Scanner} {gap : Gap} (h : s.gap = .ok gap) (hrest : s'.rest = s.rest)
    (hnesting : s'.nesting = s.nesting) : s'.gap = .ok gap := by
  rcases gap_cases h with ⟨⟨frames, hframes⟩, rfl⟩ | ⟨hframes, hread⟩
  · rw [Scanner.gap, hnesting, hframes]
  · exact gap_of_read (hnesting ▸ hframes) (hrest ▸ hread)

theorem step_of_end {s : Scanner} {gap : Gap} (hgap : s.gap = .ok gap) (hrest : (s.advance gap.length).rest = [])
    (hend : (s.advance gap.length).atEnd = .ok ()) : s.step = .ok (s.advance gap.length, false) := by
  simp only [step, bind, Except.bind, hgap, hrest, hend, pure, Except.pure]

theorem atEnd_relocate (g : Nat → Nat) {s : Scanner} (h : s.atEnd = .ok ()) : (s.relocate g).atEnd = .ok () := by
  unfold atEnd at h ⊢
  rw [show (s.relocate g).nesting = s.nesting from rfl]
  split at h
  · cases h
  · cases h
  · rfl

section Relocate

variable {g : Nat → Nat} {first : Nat} (hg : Shifts g first) {s : Scanner} (hs : first ≤ s.offset)
include hg hs

theorem relocate_advance (n : Nat) : (s.advance n).relocate g = (s.relocate g).advance n := by
  simp only [relocate, advance, hg _ _ hs]

theorem relocate_push (lineBreak : Bool) (c : Char) (rest : List Char) (l : Lexeme) (p : Place) :
    (s.push lineBreak c rest l p).relocate g = (s.relocate g).push lineBreak c rest l p := by
  simp only [relocate, push, hg _ _ hs, relocate_record]
  rfl

theorem relocate_step {t : Scanner} {more : Bool} (h : s.step = .ok (t, more)) :
    (s.relocate g).step = .ok (t.relocate g, more) := by
  obtain ⟨gap, hgap, ⟨rfl, rfl, hrest, hend⟩ | ⟨rfl, c, rest, l, p, hrest, hl, hp, rfl⟩⟩ := step_cases h
  · rw [relocate_advance hg hs]
    refine step_of_end (gap_congr hgap rfl rfl) hrest ?_
    rw [← relocate_advance hg hs]
    exact atEnd_relocate g hend
  · have hoffset : first ≤ (s.advance gap.length).offset := Nat.le_trans hs (Nat.le_add_right _ _)
    rw [relocate_push hg hoffset, relocate_advance hg hs]
    refine step_of_gap (gap_congr hgap rfl rfl) hrest ?_ ?_
    · rw [← relocate_advance hg hs]
      exact lexeme_relocate g hl
    · exact (place_relocate g s l.kind l.effect).trans hp

theorem relocate_run {t : Scanner} (h : s.run = .ok t) : (s.relocate g).run = .ok (t.relocate g) := by
  fun_induction run s with
  | case1 => cases h
  | case2 s u hu =>
    cases h
    exact run_eq_of_step (relocate_step hg hs hu)
  | case3 s u hu ih =>
    rw [run_eq_of_step (relocate_step hg hs hu), if_pos rfl]
    exact ih (Nat.le_trans hs (Nat.le_of_lt (offset_lt_of_step hu))) h

end Relocate

theorem places_run {s t : Scanner} (h : s.run = .ok t) :
    s.tokens.toList.map Token.place <+: t.tokens.toList.map Token.place := by
  refine (run_induction (P := fun u => s.tokens.toList.map Token.place <+: u.tokens.toList.map Token.place) ?_
    (List.prefix_refl _) h).1
  intro u v more hu hstep
  obtain ⟨gap, _, ⟨_, rfl, _, _⟩ | ⟨_, c, rest, l, p, _, _, _, rfl⟩⟩ := step_cases hstep
  · exact hu
  · rw [push_tokens, map_record _ fun _ _ => rfl]
    exact hu.trans (List.prefix_append _ _)

theorem exists_step_at {s t : Scanner} (h : s.run = .ok t) {i : Nat} (hs : s.tokens.size ≤ i) (hi : i < t.tokens.size) :
    ∃ n u v, Steps s n u ∧ u.tokens.size = i ∧ u.step = .ok (v, true) ∧ v.run = .ok t := by
  fun_induction run s with
  | case1 => cases h
  | case2 s u hu =>
    cases h
    rw [(step_end hu).1] at hi
    omega
  | case3 s v hv ih =>
    by_cases heq : s.tokens.size = i
    · exact ⟨0, s, v, .done s, heq, hv, h⟩
    · have hsize : v.tokens.size = s.tokens.size + 1 := by
        obtain ⟨gap, _, ⟨hmore, _⟩ | ⟨_, c, rest, l, p, _, _, _, rfl⟩⟩ := step_cases hv
        · cases hmore
        · rw [push_tokens, Bracketed.size_record]
          rfl
      obtain ⟨n, u, w, hsteps, hrest⟩ := ih h (by omega)
      exact ⟨n + 1, u, w, .more hv hsteps, hrest⟩

theorem exists_step_between {source : List Char} {e : Scanner} (h : (start source).run = .ok e) {i : Nat} {a b : Token}
    (ha : e.tokens[i]? = some a) (hb : e.tokens[i + 1]? = some b) : ∃ n u v gap, Steps (start source) n u ∧
      u.offset = a.stop ∧ u.gap = .ok gap ∧ b.start = (u.advance gap.length).offset ∧ u.step = .ok (v, true) ∧
      v.run = .ok e := by
  obtain ⟨n, u, v, hsteps, hsize, hstep, hv⟩ := exists_step_at h (Nat.zero_le _) (lt_size_of_getElem? hb)
  obtain ⟨gap, hgap, ⟨hmore, _⟩ | ⟨_, c, rest, l, p, _, _, _, rfl⟩⟩ := step_cases hstep
  · cases hmore
  have hflagged := hsteps.induction (fun _ _ h => Flagged.step h) (Flagged.start source)
  obtain ⟨later, hplaces⟩ := places_run hv
  rw [push_tokens, map_record _ fun _ _ => rfl, List.append_assoc] at hplaces
  change u.tokens.toList.map Token.place ++ (((u.advance gap.length).offset, _) :: later) = _ at hplaces
  have hlength : (u.tokens.toList.map Token.place).length = i + 1 := by simpa using hsize
  have hplace {k : Nat} {t : Token} (ht : e.tokens[k]? = some t) :
      (e.tokens.toList.map Token.place)[k]? = some t.place := by simp [ht]
  refine ⟨n, u, _, gap, hsteps, ?_, hgap, ?_, hstep, hv⟩
  · have hlast := hplace ha
    rw [← hplaces, List.getElem?_append_left (by omega), List.getElem?_map, Array.getElem?_toList] at hlast
    obtain ⟨t, ht, hta⟩ := Option.map_eq_some_iff.1 hlast
    obtain ⟨hstart, htext⟩ := Prod.mk.inj hta
    rw [← hflagged.last t (by rw [Array.back?, hsize, Nat.add_sub_cancel, ht]), Token.stop, Token.stop, hstart, htext]
  · have hnext := hplace hb
    rw [← hplaces, ← hlength, List.getElem?_append_right (Nat.le_refl _), Nat.sub_self,
      List.getElem?_cons_zero] at hnext
    exact (Prod.mk.inj (Option.some.inj hnext)).1.symm

theorem exists_step_at_space {pre post : List Char} {e : Scanner} (h : (start (pre ++ ' ' :: post)).run = .ok e)
    {i : Nat} {a b : Token} (ha : e.tokens[i]? = some a) (hb : e.tokens[i + 1]? = some b)
    (hstop : a.stop = byteLength pre) (hstart : b.start = a.stop + 1) :
    ∃ n u v gap, Steps (start (pre ++ ' ' :: post)) n u ∧ u.rest = ' ' :: post ∧ u.offset = a.stop ∧
      u.gap = .ok gap ∧ gap.length = 1 ∧ u.step = .ok (v, true) ∧ v.run = .ok e := by
  obtain ⟨n, u, v, gap, hsteps, hoffset, hgap, hnext, hstep, hv⟩ := exists_step_between h ha hb
  obtain ⟨before, hsource, hbefore⟩ := hsteps.placedIn.split
  have hrest : u.rest = ' ' :: post := by
    have hpre := takeBytes_byteLength_append pre (' ' :: post)
    rw [hsource, ← hstop, ← hoffset, ← hbefore, takeBytes_byteLength_append] at hpre
    exact (List.append_cancel_left (hpre ▸ hsource)).symm
  refine ⟨n, u, v, gap, hsteps, hrest, hoffset, hgap, ?_, hstep, hv⟩
  have hle := length_le_of_gap hgap
  have hspace : byteLength ((' ' :: post).take gap.length) = 1 := by
    change b.start = u.offset + byteLength (u.rest.take gap.length) at hnext
    rw [hrest] at hnext
    omega
  have htake := length_le_byteLength ((' ' :: post).take gap.length)
  rw [List.length_take, Nat.min_eq_left (hrest ▸ hle)] at htake
  have hne : gap.length ≠ 0 := by
    intro hzero
    rw [hzero] at hspace
    cases hspace
  omega

end Scanner

theorem Gap.hashbangLength_alike {x y : List Char} (h : Alike (hashbangLength x) x y) :
    hashbangLength y = hashbangLength x := by
  unfold hashbangLength at h ⊢
  split at h
  · rename_i x
    obtain ⟨y, rfl, hy⟩ := Alike.of_append ['#', '!'] h
    exact congrArg (fun line => 2 + line.length) (Lexeme.takeWhile_alike (by decide) hy)
  · rename_i hnot
    split
    · rename_i y
      generalize htext : '#' :: '!' :: y = text at h
      cases h with
      | refl => exact absurd htext.symm (hnot y)
      | @space taken rest rest' =>
        obtain _ | ⟨_, _ | ⟨_, taken⟩⟩ := taken <;> cases htext
        exact absurd rfl (hnot _)
    · rfl

theorem Scanner.start_alike {pre a v : List Char} (h : (start (pre ++ ' ' :: a)).rest = v ++ ' ' :: a) (b : List Char) :
    start (pre ++ ' ' :: b) = { start (pre ++ ' ' :: a) with rest := v ++ ' ' :: b } := by
  obtain ⟨n, hn⟩ : ∃ n, n = Gap.hashbangLength (pre ++ ' ' :: a) := ⟨_, rfl⟩
  change (pre ++ ' ' :: a).drop (Gap.hashbangLength (pre ++ ' ' :: a)) = v ++ ' ' :: a at h
  rw [← hn] at h
  have hle : n ≤ pre.length := by
    have hlength := congrArg List.length h
    rw [List.length_drop, List.length_append, List.length_append, List.length_cons] at hlength
    omega
  rw [List.drop_append_of_le_length hle, List.append_cancel_right_eq] at h
  have hbang : Gap.hashbangLength (pre ++ ' ' :: b) = n := hn ▸ Gap.hashbangLength_alike (.space (hn ▸ hle))
  simp only [start, hbang, ← hn, List.take_append_of_le_length hle, List.drop_append_of_le_length hle, h]

def moveFrom (first more place : Nat) : Nat := if first ≤ place then place + more else place

theorem shifts_moveFrom (first more : Nat) : Scanner.Shifts (moveFrom first more) first := by
  intro x n hx
  rw [moveFrom, moveFrom, if_pos hx, if_pos (Nat.le_trans hx (Nat.le_add_right x n)), Nat.add_right_comm]

theorem Token.relocate_of_lt {first : Nat} {t : Token} (h : t.start < first) (more : Nat) :
    t.relocate (moveFrom first more) = t := by
  rw [relocate, moveFrom, if_neg (Nat.not_le.2 h)]

theorem Scanner.step_filler {s t : Scanner} (h : s.step = .ok (t, true)) {post : List Char}
    (hrest : s.rest = ' ' :: post) {gap : Gap} (hgap : s.gap = .ok gap) (hlength : gap.length = 1) {filler : List Char}
    (hfiller : Filler filler) (hne : filler ≠ []) (htokens : ∀ t ∈ s.tokens, t.start < s.offset + 1) :
    Scanner.step { s with rest := filler ++ post } =
      .ok (t.relocate (moveFrom (s.offset + 1) (byteLength filler - 1)), true) := by
  obtain ⟨_, hgap', ⟨hmore, _⟩ | ⟨_, c, rest, l, p, hadvance, hl, hp, rfl⟩⟩ := step_cases h
  · cases hmore
  rw [hgap] at hgap'
  cases hgap'
  rw [hlength] at hadvance hl
  obtain rfl : post = c :: rest := by rwa [advance, hrest] at hadvance
  rcases gap_cases hgap with ⟨_, rfl⟩ | ⟨hframes, hread⟩
  · cases hlength
  rw [hrest] at hread
  obtain ⟨hflag, hread⟩ := Filler.read_eq (.space .nil) hfiller hread hlength
  have hgap' : Scanner.gap { s with rest := filler ++ c :: rest } = .ok ⟨filler.length, false⟩ :=
    gap_of_read (s := { s with rest := filler ++ c :: rest }) hframes hread
  have hmoved : Scanner.advance { s with rest := filler ++ c :: rest } filler.length =
      (s.advance 1).relocate (moveFrom (s.offset + 1) (byteLength filler - 1)) := by
    have hkept : s.tokens.map (Token.relocate (moveFrom (s.offset + 1) (byteLength filler - 1))) = s.tokens :=
      (Array.map_congr_left fun t ht => Token.relocate_of_lt (htokens t ht) _).trans (Array.map_id' s.tokens)
    have hpos := length_le_byteLength filler
    have hlonger := List.length_pos_iff.2 hne
    have hspace : byteLength [' '] = 1 := rfl
    simp only [advance, relocate, hkept, hrest, List.take_left, List.drop_left, List.take_succ_cons, List.take_zero,
      List.drop_succ_cons, List.drop_zero, hspace, moveFrom, if_pos (Nat.le_refl _)]
    congr 1
    omega
  have hstep := step_of_gap (s := { s with rest := filler ++ c :: rest }) hgap' (hmoved ▸ hadvance)
    (hmoved ▸ lexeme_relocate _ hl) hp
  have hoffset : (s.advance 1).offset = s.offset + 1 := by
    rw [advance, hrest]
    rfl
  rw [hstep, hmoved, hlength, hflag, relocate_push (shifts_moveFrom _ _) (Nat.le_of_eq hoffset.symm)]

namespace Stream

theorem read_of_run {source : List Char} {t : Scanner} (h : (Scanner.start source).run = .ok t)
    (hframes : t.nesting.frames = []) : Stream.read source = .ok ⟨t.tokens, byteLength source⟩ := by
  unfold Stream.read
  rw [h]
  simp only [bind, Except.bind, hframes]
  rfl

variable {pre post filler : List Char}

theorem read_filler {r : Stream} (hr : Stream.read (pre ++ ' ' :: post) = .ok r) {i : Nat} {a b : Token}
    (ha : r.tokens[i]? = some a) (hb : r.tokens[i + 1]? = some b) (hstop : a.stop = byteLength pre)
    (hstart : b.start = a.stop + 1) (hfiller : Filler filler) (hhead : filler.head? = some ' ') :
    Stream.read (pre ++ filler ++ post) = .ok (r.relocate (moveFrom b.start (byteLength filler - 1))) := by
  obtain ⟨e, he, hframes, rfl⟩ := Stream.read_eq_ok hr
  obtain ⟨n, u, v, gap, hsteps, hrest, hoffset, hgap, hlength, hstep, hv⟩ :=
    Scanner.exists_step_at_space he ha hb hstop hstart
  have htokens : ∀ t ∈ u.tokens, t.start < u.offset + 1 := by
    intro t ht
    have hbefore := hsteps.placedIn.before t.place (List.mem_map_of_mem (Array.mem_toList_iff.2 ht))
    simp only [Token.place] at hbefore
    omega
  obtain ⟨w, hw⟩ : ∃ w, (Scanner.start (pre ++ ' ' :: post)).rest = w ++ ' ' :: post := by
    have hsuffix : (Scanner.start (pre ++ ' ' :: post)).rest <:+ pre ++ ' ' :: post := List.drop_suffix _ _
    obtain ⟨w, hw⟩ := List.suffix_of_suffix_length_le (List.suffix_append pre (' ' :: post)) hsuffix
      (hrest ▸ hsteps.length_le)
    exact ⟨w, hw.symm⟩
  obtain ⟨cs, rfl⟩ := List.head?_eq_some_iff.1 hhead
  obtain ⟨g, hg⟩ : ∃ g, g = moveFrom (u.offset + 1) (byteLength (' ' :: cs) - 1) := ⟨_, rfl⟩
  have hrun : (Scanner.start (pre ++ (' ' :: cs) ++ post)).run = .ok (e.relocate g) := by
    -- Up to the space the runs read the same text; from the next token on they do so again, at moved places.
    have hsteps' := hsteps.alike hw hrest (cs ++ post)
    have hstep' := Scanner.step_filler hstep hrest hgap hlength hfiller (List.cons_ne_nil _ _) htokens
    rw [List.cons_append] at hstep'
    rw [List.append_assoc, List.cons_append, Scanner.start_alike hw, hsteps'.run_eq, Scanner.run_eq_of_step hstep',
      if_pos rfl, hg]
    exact Scanner.relocate_run (shifts_moveFrom _ _) (Scanner.offset_lt_of_step hstep) hv
  have hend : g (byteLength (pre ++ ' ' :: post)) = byteLength (pre ++ (' ' :: cs) ++ post) := by
    have hspace : ' '.utf8Size = 1 := rfl
    rw [hg, moveFrom, if_pos]
    · simp only [byteLength_append, byteLength_cons, hspace]
      omega
    · simp only [byteLength_append, byteLength_cons, hspace]
      omega
  rw [read_of_run hrun hframes, hstart, ← hoffset, ← hg, relocate, hend]
  rfl

/-- The spaces and comments between two tokens do not matter to the others: where a single space stands between them,
any spaces and comments within the line that begin with a space give the same tokens, and roles, at places moved by as
much as there is more text. -/
theorem scan_filler {s : Stream} (hs : scan (pre ++ ' ' :: post) = .ok s) {i : Nat} {a b : Token}
    (ha : s.tokens[i]? = some a) (hb : s.tokens[i + 1]? = some b) (hstop : a.stop = byteLength pre)
    (hstart : b.start = a.stop + 1) (hfiller : Filler filler) (hhead : filler.head? = some ' ') :
    scan (pre ++ filler ++ post) = .ok (s.relocate (moveFrom b.start (byteLength filler - 1))) := by
  obtain ⟨r, hr, ho⟩ := outline_of_scan hs
  obtain ⟨a', ha', houtline⟩ := exists_of_outline ho ha
  obtain ⟨b', hb', houtline'⟩ := exists_of_outline ho hb
  have hstopa : a'.outline.stop = a.outline.stop := by rw [houtline]
  have hstartb : b'.outline.start = b.outline.start := by rw [houtline']
  change a'.stop = a.stop at hstopa
  change b'.start = b.start at hstartb
  have hread := read_filler hr ha' hb' (hstopa.trans hstop) (by rw [hstartb, hstopa, hstart]) hfiller hhead
  rw [scan, hr] at hs
  cases hs
  rw [scan, hread, relocate_markSites, relocate_assignRoles, hstartb]
  rfl

/-- The question mark of a conditional before a decimal, and a comment between them. -/
theorem scan_filler_decimal : ∃ s, scan "x ? .5 : y".toList = .ok s ∧
    scan "x ? /*:*/ .5 : y".toList = .ok (s.relocate (moveFrom 4 6)) := by
  obtain ⟨s, hs, h⟩ := exists_ok_of_test (x := scan "x ? .5 : y".toList) (fun s =>
    s.tokens[1]?.any (·.stop = 3) && s.tokens[2]?.any (·.start = 4)) (by decide +kernel)
  simp only [Bool.and_eq_true, Option.any_eq_true, decide_eq_true_eq] at h
  obtain ⟨⟨a, ha, hstop⟩, b, hb, hstart⟩ := h
  have hcomment : Filler ('/' :: '*' :: [':'] ++ ['*', '/', ' ']) :=
    .comment (by decide) (by simp [isLineBreak]) (.space .nil)
  have hs' : scan ("x ?".toList ++ ' ' :: ".5 : y".toList) = .ok s := hs
  have hmoved := scan_filler hs' ha hb hstop (hstart.trans (congrArg (· + 1) hstop.symm)) (.space hcomment) rfl
  rw [hstart] at hmoved
  exact ⟨s, hs, hmoved⟩

end Stream

end ModuleLowering
