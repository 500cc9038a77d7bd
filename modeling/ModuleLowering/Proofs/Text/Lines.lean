import Mathlib.Algebra.GroupWithZero.Nat
import Mathlib.Algebra.Order.BigOperators.Group.List
import Mathlib.Algebra.Order.Group.Nat
import ModuleLowering.Proofs.Text.Weave
import ModuleLowering.Text.Position

namespace ModuleLowering.Text

theorem lt_of_mem_lineStartsFrom {cs : List Char} {offset start : Nat} (h : start ∈ lineStartsFrom offset cs) :
    offset < start := by
  induction cs generalizing offset with
  | nil => cases h
  | cons c cs ih =>
    have := c.utf8Size_pos
    unfold lineStartsFrom at h
    dsimp only at h
    split at h
    · rcases List.mem_cons.1 h with rfl | h
      · omega
      · have := ih h
        omega
    · have := ih h
      omega

theorem length_takeWhile_lineStartsFrom (cs : List Char) (offset n : Nat) :
    ((lineStartsFrom offset cs).takeWhile (· ≤ offset + n)).length = (takeBytes n cs).count '\n' := by
  induction cs generalizing offset n with
  | nil => rfl
  | cons c cs ih =>
    have hnext := ih (offset + c.utf8Size) (n - c.utf8Size)
    unfold lineStartsFrom takeBytes
    dsimp only
    by_cases hfits : c.utf8Size ≤ n
    · rw [show offset + c.utf8Size + (n - c.utf8Size) = offset + n by omega] at hnext
      rw [if_pos hfits]
      split
      · rename_i hfeed
        subst hfeed
        rw [List.takeWhile_cons_of_pos (by simpa using Nat.add_le_add_left hfits offset), List.length_cons, hnext,
          List.count_cons_self]
      · rename_i hfeed
        rw [hnext, List.count_cons_of_ne hfeed]
    · -- The first character does not fit, and all lines begin after it.
      have hnone (xs : List Nat) (hxs : ∀ x ∈ xs, offset + n < x) : xs.takeWhile (· ≤ offset + n) = [] := by
        cases xs with
        | nil => rfl
        | cons x xs => exact List.takeWhile_cons_of_neg (by simpa using hxs x List.mem_cons_self)
      rw [if_neg hfits, List.count_nil, List.length_eq_zero_iff]
      apply hnone
      intro x hx
      split at hx
      · rcases List.mem_cons.1 hx with rfl | hx
        · omega
        · have := lt_of_mem_lineStartsFrom hx
          omega
      · have := lt_of_mem_lineStartsFrom hx
        omega

theorem takeBytes_min (n : Nat) (cs : List Char) : takeBytes (min n (byteLength cs)) cs = takeBytes n cs := by
  rcases Nat.le_total n (byteLength cs) with hle | hle
  · rw [Nat.min_eq_left hle]
  · have hall : takeBytes n cs = cs := by
      induction cs generalizing n with
      | nil => rfl
      | cons c cs ih =>
        rw [byteLength_cons] at hle
        rw [takeBytes, if_pos (by omega), ih _ (by omega)]
    rw [Nat.min_eq_right hle, hall]
    simpa using takeBytes_byteLength_append cs []

theorem location_line (source : List Char) (offset : Nat) :
    (location source offset).line = (takeBytes offset source).count '\n' + 1 := by
  have hlength := length_takeWhile_lineStartsFrom source 0 (min offset (byteLength source))
  rw [Nat.zero_add, takeBytes_min] at hlength
  unfold location lineStarts
  dsimp only
  rw [List.takeWhile_cons_of_pos (by simp), List.length_cons, hlength]

theorem count_lineFeeds (cs : List Char) : (lineFeeds cs).toList.count '\n' = cs.count '\n' := by
  rw [lineFeeds, String.toList_ofList, List.count_filter (by simp)]

theorem text_of_split {source before word after : List Char} {span : Span}
    (hsource : source = before ++ word ++ after) (hstart : byteLength before = span.start)
    (hstop : span.start + byteLength word = span.stop) : span.text source = word := by
  have hword : IsBoundary source span.stop := by
    rw [hsource, ← hstop, ← hstart, ← byteLength_append]
    exact congrArg byteLength (takeBytes_byteLength_append _ _)
  have hbefore : IsBoundary source span.start := by
    rw [hsource, List.append_assoc, ← hstart]
    exact congrArg byteLength (takeBytes_byteLength_append _ _)
  rw [Span.text, slice?, if_pos ⟨by omega, hbefore, hword⟩, Option.getD_some, hsource, List.append_assoc, ← hstart,
    dropBytes_byteLength_append, show span.stop - byteLength before = byteLength word by omega,
    takeBytes_byteLength_append]

theorem text_point (source : List Char) (offset : Nat) : (Span.point offset).text source = [] := by
  unfold Span.text slice? Span.point
  dsimp only
  split
  · rw [Nat.sub_self, Option.getD_some]
    cases dropBytes offset source with
    | nil => rfl
    | cons c cs => exact if_neg (Nat.not_le_of_lt c.utf8Size_pos)
  · rfl

def Span.Within (s t : Span) : Prop := t.start ≤ s.start ∧ s.stop ≤ t.stop

namespace Edit

def removed (source : List Char) (e : Edit) : Nat := (e.span.text source).count '\n'

def added (e : Edit) : Nat := e.text.toList.count '\n'

def Level (source : List Char) (e : Edit) : Prop := e.added = e.removed source

end Edit

namespace Woven

variable {source : List Char} {pos : Nat} {rest out : List Char} {es : List Edit}

theorem count_lineFeeds (h : Woven pos rest es out) {before after : List Char}
    (hsource : source = before ++ rest ++ after) (hpos : byteLength before = pos) :
    out.count '\n' + (es.map (Edit.removed source)).sum = rest.count '\n' + (es.map Edit.added).sum := by
  induction h generalizing before with
  | done => simp
  | @edit pos e es kept removed rest out hstart hstop _ ih =>
    have hword : source = (before ++ kept) ++ removed ++ (rest ++ after) := by simpa using hsource
    have hremoved : e.removed source = removed.count '\n' := by
      rw [Edit.removed, text_of_split hword (by rw [byteLength_append]; omega) hstop]
    have hnext := ih (show source = (before ++ kept ++ removed) ++ rest ++ after by simpa using hsource)
      (by rw [byteLength_append, byteLength_append]; omega)
    simp only [List.map_cons, List.sum_cons, List.count_append, hremoved]
    have : e.text.toList.count '\n' = e.added := rfl
    omega

theorem exists_of_append {xs ys zs ws : List Char} (h : xs ++ ys = zs ++ ws) (hle : byteLength xs ≤ byteLength zs) :
    ∃ middle, zs = xs ++ middle ∧ ys = middle ++ ws := by
  rcases List.append_eq_append_iff.1 h with ⟨middle, hzs, hys⟩ | ⟨middle, hxs, hws⟩
  · exact ⟨middle, hzs, hys⟩
  · have hnil : middle = [] := eq_nil_of_byteLength (by rw [hxs, byteLength_append] at hle; omega)
    subst hnil
    exact ⟨[], by simpa using hxs.symm, by simpa using hws.symm⟩

theorem split (h : Woven pos rest es out) {before word after : List Char} (hrest : rest = before ++ word ++ after)
    (hapart : ∀ e ∈ es, e.span.stop ≤ pos + byteLength before ∨
      pos + byteLength before + byteLength word ≤ e.span.start) :
    ∃ first last before' after', es = first ++ last ∧ out = before' ++ word ++ after' ∧
      Woven pos before first before' ∧ Woven (pos + byteLength before + byteLength word) after last after' := by
  induction h generalizing before with
  | done => exact ⟨[], [], before, after, rfl, hrest, .done, .done⟩
  | @edit pos e es kept removed rest out hstart hstop hwoven ih =>
    rcases hapart e List.mem_cons_self with hle | hle
    · rw [List.append_assoc before] at hrest
      obtain ⟨middle, hbefore, htail⟩ := exists_of_append hrest (by rw [byteLength_append]; omega)
      have hpos : pos + byteLength before = e.span.stop + byteLength middle := by
        rw [hbefore, byteLength_append, byteLength_append]
        omega
      rw [hpos] at hapart ⊢
      obtain ⟨first, last, before', after', rfl, rfl, hfirst, hlast⟩ :=
        ih (htail.trans (List.append_assoc _ _ _).symm) fun f hf => hapart f (List.mem_cons_of_mem e hf)
      refine ⟨e :: first, last, kept ++ e.text.toList ++ before', after', rfl, by simp, ?_, hlast⟩
      rw [hbefore]
      exact .edit hstart hstop hfirst
    · rw [List.append_assoc kept] at hrest
      obtain ⟨middle, hkept, htail⟩ := exists_of_append hrest.symm (by rw [byteLength_append]; omega)
      refine ⟨[], e :: es, before, middle ++ e.text.toList ++ out, rfl, by simp [hkept], .done, ?_⟩
      rw [htail, ← List.append_assoc]
      refine .edit ?_ hstop hwoven
      rw [hkept, byteLength_append, byteLength_append] at hstart
      omega

end Woven

theorem sum_eq_sum_iff {α : Type} {f g : α → Nat} {xs : List α} (hle : ∀ x ∈ xs, f x ≤ g x) :
    (xs.map f).sum = (xs.map g).sum ↔ ∀ x ∈ xs, f x = g x := by
  induction xs with
  | nil => simp
  | cons x xs ih =>
    have hx := hle x List.mem_cons_self
    have hxs := List.sum_le_sum fun y hy => hle y (List.mem_cons_of_mem x hy)
    rw [List.map_cons, List.map_cons, List.sum_cons, List.sum_cons, List.forall_mem_cons,
      ← ih fun y hy => hle y (List.mem_cons_of_mem x hy)]
    omega

theorem Woven.count_eq_iff {source out : List Char} {es : List Edit} (h : Woven 0 source es out)
    (hle : ∀ e ∈ es, e.added ≤ e.removed source) :
    out.count '\n' = source.count '\n' ↔ ∀ e ∈ es, e.Level source := by
  have hcount := h.count_lineFeeds (show source = [] ++ source ++ [] by simp) rfl
  refine Iff.trans ?_ (sum_eq_sum_iff hle)
  omega

inductive Stays (source : List Char) (es : List Edit) (out word : List Char) : Nat → Nat → Prop
  | intro {before after before' after' : List Char} {first last : List Edit} (hes : es = first ++ last)
      (hsource : source = before ++ word ++ after) (hout : out = before' ++ word ++ after')
      (hfirst : Woven 0 before first before')
      (hlast : Woven (byteLength before + byteLength word) after last after') :
      Stays source es out word (byteLength before) (byteLength before')

theorem Woven.stays {source out before word after : List Char} {es : List Edit} (h : Woven 0 source es out)
    (hsource : source = before ++ word ++ after)
    (hapart : ∀ e ∈ es, e.span.stop ≤ byteLength before ∨ byteLength before + byteLength word ≤ e.span.start) :
    ∃ place, Stays source es out word (byteLength before) place := by
  obtain ⟨first, last, before', after', hes, hout, hfirst, hlast⟩ := h.split hsource (by simpa using hapart)
  rw [Nat.zero_add] at hlast
  exact ⟨_, .intro hes hsource hout hfirst hlast⟩

theorem Stays.line_eq {source out word : List Char} {es : List Edit} {start place : Nat}
    (h : Stays source es out word start place) (hlevel : ∀ e ∈ es, e.Level source) :
    (location out place).line = (location source start).line := by
  obtain @⟨before, after, before', after', first, last, hes, hsource, hout, hfirst, _⟩ := h
  have hcount := hfirst.count_lineFeeds (show source = [] ++ before ++ (word ++ after) by simpa using hsource) rfl
  have hsum : (first.map Edit.added).sum = (first.map (Edit.removed source)).sum :=
    congrArg List.sum (List.map_congr_left fun e he => hlevel e (hes ▸ List.mem_append_left last he))
  have hbefore : takeBytes (byteLength before) source = before := by
    rw [hsource, List.append_assoc, takeBytes_byteLength_append]
  have hbefore' : takeBytes (byteLength before') out = before' := by
    rw [hout, List.append_assoc, takeBytes_byteLength_append]
  rw [location_line, location_line, hbefore, hbefore']
  omega

end ModuleLowering.Text
