import Mathlib.Data.Set.Card
import ModuleLowering.Proofs.Scan.Substitutions

namespace ModuleLowering

inductive Template (levels : List (Kind × Nat)) : Nat → Nat → Prop
  | tail {c d n} (h : Substitution levels c d) (hd : levels[d]? = some (.templateTail, n)) : Template levels c d
  | middle {c d e n} (h : Substitution levels c d) (hd : levels[d]? = some (.templateMiddle, n))
      (hrest : Template levels d e) : Template levels c e

theorem Substitution.eq {levels : List (Kind × Nat)} {c d e : Nat} (h : Substitution levels c d)
    (h' : Substitution levels c e) : d = e := by
  obtain ⟨_, _, n, hc, _, hd, _, hinner⟩ := h.chunks
  obtain ⟨_, _, m, hc', _, he, _, hinner'⟩ := h'.chunks
  rw [hc] at hc'
  cases hc'
  rcases Nat.lt_trichotomy d e with hlt | heq | hlt
  · exact absurd (hinner' d _ _ h.lt hlt hd) (Nat.lt_irrefl _)
  · exact heq
  · exact absurd (hinner e _ _ h'.lt hlt he) (Nat.lt_irrefl _)

theorem Template.eq {levels : List (Kind × Nat)} {c d e : Nat} (h : Template levels c d)
    (h' : Template levels c e) : d = e := by
  induction h with
  | tail hsub htail =>
    cases h' with
    | tail hsub' => exact hsub.eq hsub'
    | middle hsub' hmiddle =>
      rw [hsub.eq hsub', hmiddle] at htail
      cases htail
  | middle hsub hmiddle _ ih =>
    cases h' with
    | tail hsub' htail =>
      rw [hsub.eq hsub', htail] at hmiddle
      cases hmiddle
    | middle hsub' _ hrest' =>
      rw [← hsub.eq hsub'] at hrest'
      exact ih hrest'

namespace Nested

variable {levels : List (Kind × Nat)} (h : Nested levels [])
include h

theorem exists_substitution {c n : Nat} {a : Kind} (hc : levels[c]? = some (a, n)) (ha : a.opensSubstitution) :
    ∃ d, Substitution levels c d := by
  rcases h.closed c a n hc ha with hd | ⟨_, hmem⟩
  · exact hd
  · cases hmem

theorem exists_template {c n : Nat} {a : Kind} (hc : levels[c]? = some (a, n)) (ha : a.opensSubstitution) :
    ∃ e, Template levels c e := by
  obtain ⟨d, hsub⟩ := h.exists_substitution hc ha
  obtain ⟨_, b, m, _, _, hd, hcloses, _⟩ := hsub.chunks
  have hlt := hsub.lt
  have hbound := (List.getElem?_eq_some_iff.1 hd).1
  cases b with
  | templateTail => exact ⟨d, .tail hsub hd⟩
  | templateMiddle =>
    obtain ⟨e, he⟩ := exists_template hd rfl
    exact ⟨e, .middle hsub hd he⟩
  | _ => cases hcloses
termination_by levels.length - c

theorem ncard_encloses {k n : Nat} {x : Kind} (hk : levels[k]? = some (x, n)) :
    {i | ∃ m, Encloses levels m i k}.ncard = n := by
  let depthAt (i : Nat) : Nat := (levels[i]?.map Prod.snd).getD 0
  have hdepth {m i : Nat} (hi : Encloses levels m i k) : depthAt i = m := by
    obtain ⟨a, ha, _⟩ := hi.opener
    simp [depthAt, ha]
  have himage : depthAt '' {i | ∃ m, Encloses levels m i k} = Finset.range n := by
    ext m
    simp only [Set.mem_image, Set.mem_ofPred_eq, Finset.coe_range, Set.mem_Iio]
    constructor
    · rintro ⟨i, ⟨m', hi⟩, rfl⟩
      rw [hdepth hi]
      exact hi.deeper k x n hi.lt (Nat.le_refl _) hk
    · intro hm
      obtain ⟨i, hi⟩ := h.enclosed k x n hk m hm
      exact ⟨i, ⟨m, hi⟩, hdepth hi⟩
  have hinj : Set.InjOn depthAt {i | ∃ m, Encloses levels m i k} := by
    rintro i ⟨m, hi⟩ j ⟨m', hj⟩ heq
    rw [hdepth hi, hdepth hj] at heq
    subst heq
    obtain ⟨a, ha, _⟩ := hi.opener
    obtain ⟨b, hb, _⟩ := hj.opener
    rcases Nat.lt_trichotomy i j with hlt | heq | hlt
    · exact absurd (hi.deeper j b m hlt (Nat.le_of_lt hj.lt) hb) (Nat.lt_irrefl _)
    · exact heq
    · exact absurd (hj.deeper i a m hlt (Nat.le_of_lt hi.lt) ha) (Nat.lt_irrefl _)
  rw [← hinj.ncard_image, himage, Set.ncard_coe_finset, Finset.card_range]

end Nested

end ModuleLowering
