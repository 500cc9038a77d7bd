import ModuleLowering.Proofs.Role.Groups
import ModuleLowering.Proofs.Scan.History

namespace ModuleLowering

theorem frameDepth_le_of_suffix {fs gs : List Frame} (h : fs <:+ gs) : frameDepth fs ≤ frameDepth gs :=
  h.sublist.countP_le

theorem frames_eq_nil {fs : List Frame} (hdepth : frameDepth fs = 0) (hcontext : frameContext fs = .topLevel) :
    fs = [] := by
  cases fs with
  | nil => rfl
  | cons f fs =>
    cases f with
    | group => simp at hdepth
    | tag | children => cases hcontext

namespace Moves

variable {index : Nat} {t : Token} {fs gs base : List Frame} {f : Frame}

theorem keeps (h : Moves index t fs gs) (hgroup : f.isGroup) (hdeep : frameDepth base < t.depth)
    (hbelow : (f :: base) <:+ fs) : (f :: base) <:+ gs := by
  have hbehind {g : Frame} {fs : List Frame} (hd : t.depth = frameDepth fs) (hbelow : (f :: base) <:+ g :: fs) :
      (f :: base) <:+ fs := by
    rcases List.suffix_cons_iff.1 hbelow with heq | hbelow
    · cases heq
      omega
    · exact hbelow
  have hother {g : Frame} {fs : List Frame} (hg : g.isGroup = false) (hbelow : (f :: base) <:+ g :: fs) :
      (f :: base) <:+ fs := by
    rcases List.suffix_cons_iff.1 hbelow with heq | hbelow
    · cases heq
      rw [hg] at hgroup
      cases hgroup
    · exact hbelow
  cases h with
  | stays => exact hbelow
  | opens | beginsTag => exact hbelow.trans (List.suffix_cons ..)
  | closes _ _ _ _ _ _ hd => exact hbehind hd hbelow
  | leaves _ _ _ _ hd => exact hbehind hd hbelow
  | reenters _ _ _ _ _ _ hd => exact (hbehind hd hbelow).trans (List.suffix_cons ..)
  | endsOpeningTag => exact (hother rfl hbelow).trans (List.suffix_cons ..)
  | endsElement => exact hother rfl (hother rfl hbelow)
  | endsEmptyElement => exact hother rfl hbelow

theorem closes_of_isCloser (h : Moves index t fs gs) (hk : t.kind.isCloser) :
    ∃ region opener waiting, fs = .group region opener waiting :: gs ∧ t.depth = frameDepth gs := by
  obtain ⟨partner, hpair⟩ := h.pair_of_isCloser hk
  cases h with
  | closes region opener waiting _ _ _ hd => exact ⟨region, opener, waiting, rfl, hd⟩
  | stays _ hp | opens _ _ _ _ hp | leaves _ _ _ hp | reenters _ _ _ _ _ hp | beginsTag _ _ hp | endsOpeningTag _ hp
  | endsElement _ hp | endsEmptyElement _ hp =>
    rw [hpair] at hp
    cases hp

theorem opens_of_mem (h : Moves index t fs gs) (hfs : ∀ region o w, .group region o w ∈ fs → ∃ kind, region.Opens kind)
    {region : Region} {o w : Nat} (hmem : .group region o w ∈ gs) : ∃ kind, region.Opens kind := by
  cases h with
  | stays => exact hfs region o w hmem
  | opens region' _ hk =>
    rcases List.mem_cons.1 hmem with heq | hmem
    · cases heq
      exact ⟨_, hk⟩
    · exact hfs region o w hmem
  | closes | leaves => exact hfs region o w (List.mem_cons_of_mem _ hmem)
  | reenters =>
    rcases List.mem_cons.1 hmem with heq | hmem
    · cases heq
      exact ⟨.templateHead, .inl rfl⟩
    · exact hfs region o w (List.mem_cons_of_mem _ hmem)
  | beginsTag | endsOpeningTag => exact hfs region o w (by simpa using hmem)
  | endsElement | endsEmptyElement => exact hfs region o w (by simpa using hmem)

end Moves

namespace History

variable {s : Stream} {n : Nat → Nesting} (h : History s n)
include h

theorem steady {k : Nat} {t : Token} (ht : s.tokens[k]? = some t) (hk : t.kind.isSteady) :
    (n (k + 1)).frames = (n k).frames ∧ t.depth = frameDepth (n k).frames ∧ t.context = frameContext (n k).frames := by
  obtain ⟨pair, hmoves⟩ := (h.turn k t ht).moves
  obtain ⟨hframes, _, hdepth, hcontext⟩ := hmoves.stays_of_isSteady hk
  exact ⟨hframes, hdepth, hcontext⟩

theorem opens {k : Nat} {t : Token} (ht : s.tokens[k]? = some t) (hk : t.kind.isOpener) :
    ∃ region waiting, (n (k + 1)).frames = .group region k waiting :: (n k).frames ∧ region.Opens t.kind ∧
      t.depth = frameDepth (n k).frames ∧ t.context = frameContext (n k).frames := by
  obtain ⟨pair, hmoves⟩ := (h.turn k t ht).moves
  exact hmoves.opens_of_isOpener hk

theorem not_inMarkup {k : Nat} {t : Token} (ht : s.tokens[k]? = some t) (hk : t.kind.isJsxPart = false) :
    inMarkup (n k).frames = false := by
  have hmarkup := (h.turn k t ht).isJsxPart
  rw [hk] at hmarkup
  simpa using hmarkup

theorem opens_of_mem {k : Nat} (hk : k ≤ s.tokens.size) {region : Region} {o w : Nat}
    (hmem : .group region o w ∈ (n k).frames) : ∃ kind, region.Opens kind := by
  induction k generalizing region o w with
  | zero =>
    rw [h.start] at hmem
    cases hmem
  | succ k ih =>
    obtain ⟨pair, hmoves⟩ := (h.turn k _ (Array.getElem?_eq_getElem hk)).moves
    exact hmoves.opens_of_mem (fun _ _ _ => ih (Nat.le_of_lt hk)) hmem

theorem isJsx_frameContext {k : Nat} (hk : k ≤ s.tokens.size) (hout : inMarkup (n k).frames = false) :
    (frameContext (n k).frames).isJsx = false := by
  cases hframes : (n k).frames with
  | nil => rfl
  | cons f fs =>
    rw [hframes] at hout
    cases f with
    | group region o w =>
      have hmem : .group region o w ∈ (n k).frames := hframes ▸ List.mem_cons_self
      obtain ⟨kind, hopens⟩ := h.opens_of_mem hk hmem
      exact Region.isJsx_eq_false_of_opens hopens
    | tag | children => cases hout

theorem isJsx_of_steady {k : Nat} {t : Token} (ht : s.tokens[k]? = some t) (hsteady : t.kind.isSteady)
    (hk : t.kind.isJsxPart = false) : t.context.isJsx = false := by
  rw [(h.steady ht hsteady).2.2]
  exact h.isJsx_frameContext (Nat.le_of_lt (lt_size_of_getElem? ht)) (h.not_inMarkup ht hk)

theorem isJsx_or_beginsTag {k : Nat} {t : Token} (ht : s.tokens[k]? = some t) {region : Region} {o waiting : Nat}
    {fs : List Frame} (hframes : (n k).frames = .group region o waiting :: fs) (hregion : region.isJsx = false)
    (hdeep : frameDepth fs < t.depth) :
    (frameContext (n (k + 1)).frames).isJsx = false ∨ (t.kind.beginsTag ∧ t.context.isJsx = false) := by
  obtain ⟨pair, hmoves⟩ := (h.turn k t ht).moves
  rw [hframes] at hmoves
  generalize (n (k + 1)).frames = gs at hmoves ⊢
  cases hmoves with
  | stays => exact .inl hregion
  | opens _ _ hopens => exact .inl (Region.isJsx_eq_false_of_opens hopens)
  | closes _ _ _ _ _ _ hd => exact absurd hd (Nat.ne_of_gt hdeep)
  | leaves _ _ _ _ hd => exact absurd hd (Nat.ne_of_gt hdeep)
  | reenters => exact .inl rfl
  | beginsTag closing hk _ _ hc =>
    refine .inr ⟨?_, ?_⟩
    · cases closing <;> exact hk ▸ rfl
    · rw [show t.context = _ from hc]
      exact hregion

variable (hb : Bracketed s.tokens [])
include hb

theorem inside {o j : Nat} (hoj : s.closer? o = some j) :
    ∃ region waiting, (∀ a, s.tokens[o]? = some a → region.Opens a.kind) ∧
      ∀ k, o < k → k ≤ j → .group region o waiting :: (n o).frames <:+ (n k).frames := by
  have hmates := Stream.mates_of_closer? hb hoj
  obtain ⟨a, b, _, ha, hb', _⟩ := hmates.brackets
  obtain ⟨region, waiting, hframes, hopens, hdepth, _⟩ := h.opens ha (hmates.isOpener ha)
  refine ⟨region, waiting, fun a' ha' => Option.some.inj (ha.symm.trans ha') ▸ hopens, fun k hok hkj => ?_⟩
  -- Every token up to the partner is deeper than the opener, so none of them closes its frame.
  induction k with
  | zero => omega
  | succ k ih =>
    rcases Nat.lt_or_eq_of_le (Nat.le_of_lt_succ hok) with hok | rfl
    · obtain ⟨t, ht⟩ : ∃ t, s.tokens[k]? = some t :=
        ⟨_, Array.getElem?_eq_getElem (Nat.lt_of_le_of_lt (Nat.le_of_lt hkj) (lt_size_of_getElem? hb'))⟩
      obtain ⟨pair, hmoves⟩ := (h.turn k t ht).moves
      refine hmoves.keeps rfl ?_ (ih hok (Nat.le_of_lt hkj))
      rw [← hdepth]
      exact hmates.inner k a t ha hok hkj ht
    · exact hframes ▸ List.suffix_refl _

theorem after_closer {o j : Nat} (hoj : s.closer? o = some j) : (n (j + 1)).frames = (n o).frames := by
  have hmates := Stream.mates_of_closer? hb hoj
  obtain ⟨a, b, _, ha, hb', _, _, _, _, _, _, heq, _⟩ := hmates.brackets
  obtain ⟨region, waiting, _, hbelow⟩ := h.inside hb hoj
  obtain ⟨_, _, _, _, hdepth, _⟩ := h.opens ha (hmates.isOpener ha)
  obtain ⟨pair, hmoves⟩ := (h.turn j b hb').moves
  obtain ⟨region', opener, waiting', hframes, hd⟩ := hmoves.closes_of_isCloser (hmates.isCloser hb' :)
  have hsuffix := hbelow j hmates.lt (Nat.le_refl j)
  rw [hframes] at hsuffix
  rcases List.suffix_cons_iff.1 hsuffix with heq | hsuffix
  · exact (List.cons.inj heq).2.symm
  · have hle := frameDepth_le_of_suffix hsuffix
    rw [frameDepth_group] at hle
    dsimp only at hd
    omega

theorem directly_inside {o j k : Nat} (hoj : s.closer? o = some j) (hok : o < k) (hkj : k < j) {a t : Token}
    (ha : s.tokens[o]? = some a) (ht : s.tokens[k]? = some t) (hsteady : t.kind.isSteady)
    (hcode : t.kind.isJsxPart = false) (hdepth : t.depth = a.depth + 1) :
    ∃ region waiting, region.Opens a.kind ∧ (n k).frames = .group region o waiting :: (n o).frames := by
  have hmates := Stream.mates_of_closer? hb hoj
  obtain ⟨region, waiting, hopens, hbelow⟩ := h.inside hb hoj
  obtain ⟨_, _, _, _, hd, _⟩ := h.opens ha (hmates.isOpener ha)
  refine ⟨region, waiting, hopens a ha, ?_⟩
  have hframes := (h.steady ht hsteady).2.1
  have hout := h.not_inMarkup ht hcode
  obtain ⟨above, habove⟩ := hbelow k hok (Nat.le_of_lt hkj)
  rw [← habove] at hframes hout ⊢
  cases above with
  | nil => rfl
  | cons f above =>
    cases f with
    | group region' o' w' =>
      have hle : frameDepth (.group region o waiting :: (n o).frames) ≤
          frameDepth (above ++ .group region o waiting :: (n o).frames) :=
        frameDepth_le_of_suffix (List.suffix_append ..)
      rw [List.cons_append, frameDepth_group] at hframes
      rw [frameDepth_group] at hle
      omega
    | tag | children => cases hout

end History

end ModuleLowering
