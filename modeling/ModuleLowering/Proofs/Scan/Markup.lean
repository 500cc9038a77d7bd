import ModuleLowering.Proofs.Scan.ClosingTags
import ModuleLowering.Proofs.Scan.Safety

namespace ModuleLowering

def spots (tokens : Array Token) : List Spot := tokens.toList.map Token.spot

theorem spots_record (tokens : Array Token) (t : Token) : spots (Scanner.record tokens t) = spots tokens ++ [t.spot] :=
  map_record Token.spot (fun _ _ => rfl) tokens t

def openPhrase? : List Frame → Option (Phrase × List Frame)
  | .group region _ _ :: fs => some (.group region (frameContext fs) (frameDepth fs), fs)
  | .tag false :: fs => some (.tag (frameDepth fs), fs)
  | .tag true :: .children :: fs => some (.closing (frameDepth fs), fs)
  | .children :: fs => some (.element (frameDepth fs), fs)
  | _ => none

theorem inside_of_openPhrase? {fs around : List Frame} {phrase : Phrase} (h : openPhrase? fs = some (phrase, around)) :
    phrase.inside = (frameContext fs, frameDepth fs) := by
  unfold openPhrase? at h
  split at h <;> cases h <;> simp [Phrase.inside, frameContext, Frame.region]

theorem isRun_of_openPhrase? {fs around : List Frame} {phrase : Phrase} (h : openPhrase? fs = some (phrase, around)) :
    phrase.isRun = false := by
  unfold openPhrase? at h
  split at h <;> cases h <;> rfl

namespace Scanner

variable {s t : Scanner} {u : Spot} {phrase next : Phrase} {around : List Frame} {ts as last : List Spot}

structure Comes (s : Scanner) (ts : List Spot) (t : Scanner) : Prop where
  steps : ∃ n, s.Steps n t
  tokens : spots t.tokens = spots s.tokens ++ ts

theorem Comes.trans {r : Scanner} (h : s.Comes as t) (h' : t.Comes ts r) : s.Comes (as ++ ts) r where
  steps := by
    obtain ⟨m, hm⟩ := h.steps
    obtain ⟨n, hn⟩ := h'.steps
    exact ⟨m + n, hm.trans hn⟩
  tokens := by rw [h'.tokens, h.tokens, List.append_assoc]

inductive Closes (last : List Spot) : Scanner → Prop
  | rest {s : Scanner} {ts : List Spot} (hframes : s.nesting.frames = []) (hlast : last = spots s.tokens ++ ts)
      (hrest : Parses (.run .topLevel 0) ts) : Closes last s
  | innermost {s t : Scanner} {phrase : Phrase} {ts : List Spot} (hcomes : s.Comes ts t)
      (hopen : openPhrase? s.nesting.frames = some (phrase, t.nesting.frames)) (hphrase : Parses phrase ts)
      (h : Closes last t) : Closes last s

namespace Closes

theorem item (h : Closes last t) (hcomes : s.Comes as t) (hframes : t.nesting.frames = s.nesting.frames)
    (hitem : ∀ ts, Parses (.run (frameContext s.nesting.frames) (frameDepth s.nesting.frames)) ts →
      Parses (.run (frameContext s.nesting.frames) (frameDepth s.nesting.frames)) (as ++ ts)) : Closes last s := by
  cases h with
  | rest hnil hlast hrest =>
    rw [hnil] at hframes
    rw [← hframes] at hitem
    refine .rest hframes.symm ?_ (hitem _ hrest)
    rw [hlast, hcomes.tokens, List.append_assoc]
  | innermost hcomes' hopen hphrase h =>
    rw [hframes] at hopen
    exact .innermost (hcomes.trans hcomes') hopen (hphrase.prepend (by rwa [inside_of_openPhrase? hopen])) h

theorem inner (h : Closes last t) (hcomes : s.Comes [u] t)
    (hopen : openPhrase? t.nesting.frames = some (phrase, s.nesting.frames)) (hbegins : u.Begins phrase)
    (hcontext : u.context = frameContext s.nesting.frames) (hdepth : u.depth = frameDepth s.nesting.frames) :
    Closes last s := by
  cases h with
  | rest hnil =>
    rw [hnil] at hopen
    cases hopen
  | innermost hcomes' hopen' hphrase h =>
    obtain ⟨rfl, hframes⟩ := Prod.mk.inj (Option.some.inj (hopen'.symm.trans hopen))
    refine h.item (hcomes.trans hcomes') hframes fun ts hts => ?_
    rw [← hcontext, ← hdepth] at hts ⊢
    exact .inner hbegins hphrase hts

theorem ends (h : Closes last t) (hcomes : s.Comes [u] t)
    (hopen : openPhrase? s.nesting.frames = some (phrase, t.nesting.frames)) (hends : u.Ends phrase none) :
    Closes last s :=
  .innermost hcomes hopen (.ends hends .nil) h

theorem leads (h : Closes last t) (hcomes : s.Comes [u] t)
    (hopen : openPhrase? s.nesting.frames = some (phrase, around))
    (hnext : openPhrase? t.nesting.frames = some (next, around)) (hends : u.Ends phrase (some next)) :
    Closes last s := by
  cases h with
  | rest hnil =>
    rw [hnil] at hnext
    cases hnext
  | innermost hcomes' hnext' hphrase h =>
    obtain ⟨rfl, rfl⟩ := Prod.mk.inj (Option.some.inj (hnext'.symm.trans hnext))
    exact .innermost (hcomes.trans hcomes') hopen (.leads hends .nil hphrase) h

theorem of_step (hstep : s.step = .ok (t, true)) (hs : WellStacked s.nesting.frames) (h : Closes last t) :
    Closes last s := by
  obtain ⟨u, htokens, hmoves, hsuits⟩ := step_suits hstep hs
  have hcomes : s.Comes [u.spot] t := ⟨⟨1, .more hstep (.done t)⟩, by rw [htokens, spots_record]⟩
  generalize hfs : s.nesting.frames = fs at hmoves hsuits hs
  generalize hgs : t.nesting.frames = gs at hmoves hsuits
  -- A token stands in a run (`item`), begins a phrase (`inner`), ends one (`ends`) or goes on with one (`leads`).
  cases hmoves with
  | stays hk _ hd hc =>
    refine h.item hcomes (hgs.trans hfs.symm) fun ts hts => ?_
    have hadmits : (frameContext fs).admits u.kind := hsuits.plain rfl hk
    rw [← hc] at hadmits
    rw [hfs, ← hc, ← hd] at hts ⊢
    exact .plain (t := u.spot) hadmits hts
  | opens region waiting hk hg _ hd hc hnew =>
    rw [← hfs] at hd hc
    refine h.inner hcomes (by rw [hfs, hgs]; rfl) ?_ hc hd
    rw [← hfs, ← hc, ← hd]
    refine .group hk hnew hg ?_
    rw [show u.spot.context = frameContext fs from hfs ▸ hc, hs.isJsx_iff]
    exact hsuits.braces region _ _ rfl
  | closes region opener waiting hk hg _ hd hc =>
    refine h.ends hcomes (by rw [hfs, hgs]; rfl) ?_
    rw [← hc, ← hd]
    exact .bracket hk hg
  | leaves opener waiting hk _ hd hc =>
    refine h.ends hcomes (by rw [hfs, hgs]; rfl) ?_
    rw [← hc, ← hd]
    exact .template hk
  | reenters opener waiting waiting' hk hg _ hd hc =>
    refine h.leads hcomes (by rw [hfs]; rfl) (by rw [hgs]; rfl) ?_
    rw [← hc, ← hd]
    exact .substitution hk
  | beginsTag closing hk _ hd hc =>
    cases closing with
    | false =>
      rw [← hfs] at hd hc
      refine h.inner hcomes (by rw [hfs, hgs]; rfl) ?_ hc hd
      rw [← hfs, ← hd]
      exact .tag hk
    | true =>
      obtain ⟨outer, rfl⟩ := hsuits.closing rfl
      rw [frameDepth_children] at hd
      refine h.leads hcomes (by rw [hfs]; rfl) (by rw [hgs]; rfl) ?_
      rw [← hd]
      exact .children hk hc
  | endsOpeningTag hk _ hd hc =>
    refine h.leads hcomes (by rw [hfs]; rfl) (by rw [hgs]; rfl) ?_
    rw [← hd]
    exact .openingTag hk hc
  | endsElement hk _ hd hc =>
    refine h.ends hcomes (by rw [hfs, hgs]; rfl) ?_
    rw [← hd]
    exact .closingTag hk hc
  | endsEmptyElement hk _ hd hc =>
    refine h.ends hcomes (by rw [hfs, hgs]; rfl) ?_
    rw [← hd]
    exact .emptyElement hk hc

theorem of_steps {n : Nat} (h : Steps s n t) (hs : WellStacked s.nesting.frames) (ht : t.nesting.frames = []) :
    Closes (spots t.tokens) s := by
  induction h with
  | done => exact .rest ht (List.append_nil _).symm .nil
  | more hstep _ ih => exact of_step hstep hs (ih (wellStacked_step hs hstep) ht)

theorem spots_prefix (h : Closes last s) : spots s.tokens <+: last := by
  induction h with
  | rest _ hlast => exact ⟨_, hlast.symm⟩
  | innermost hcomes _ _ _ ih =>
    rw [hcomes.tokens] at ih
    exact (List.prefix_append _ _).trans ih

end Closes

theorem Steps.exists_last {r : Scanner} {n : Nat} (h : Steps r n s) (hrun : r.run = .ok t) :
    ∃ m u, s.Steps m u ∧ t.tokens = u.tokens ∧ t.nesting = u.nesting := by
  obtain ⟨m, u, hsteps, hends⟩ := s.exists_steps
  rw [← h.run_eq, hrun] at hends
  rcases hends with ⟨_, _, heq⟩ | ⟨t, hstep, heq⟩ <;> cases heq
  exact ⟨m, u, hsteps, step_end hstep⟩

end Scanner

theorem Stream.closes_of_read {source : List Char} {r : Stream} (h : Stream.read source = .ok r) {n : Nat}
    {s : Scanner} (hs : (Scanner.start source).Steps n s) : Scanner.Closes (spots r.tokens) s := by
  obtain ⟨t, hrun, hframes, rfl⟩ := Stream.read_eq_ok h
  obtain ⟨m, u, hsteps, htokens, hnesting⟩ := hs.exists_last hrun
  rw [hnesting] at hframes
  rw [htokens]
  exact .of_steps hsteps hs.wellStacked hframes

/-- The nesting of a source that is read: at its end nothing is open, and whatever is open last at some time has one
end, with which the scanner is back at what was open around it. -/
structure Nests (source : List Char) (r : Stream) : Prop where
  ended : ∃ t, (Scanner.start source).run = .ok t ∧ r.tokens = t.tokens ∧ t.nesting.frames = [] ∧ t.count? = some 0
  parses : Parses (.run .topLevel 0) (spots r.tokens)
  closed : ∀ n s, (Scanner.start source).Steps n s → s.nesting.frames ≠ [] →
    ∃ phrase ts t, openPhrase? s.nesting.frames = some (phrase, t.nesting.frames) ∧ Parses phrase ts ∧ s.Comes ts t ∧
      spots t.tokens <+: spots r.tokens ∧
      ∀ us, Parses phrase us → spots s.tokens ++ us <+: spots r.tokens → us = ts

theorem Stream.nests_of_read {source : List Char} {r : Stream} (h : Stream.read source = .ok r) : Nests source r where
  ended := by
    obtain ⟨t, hrun, hframes, rfl⟩ := Stream.read_eq_ok h
    have hcount : t.count? = some t.nesting.depth :=
      (Scanner.run_induction (P := fun s => s.count? = some s.nesting.depth)
        (fun _ _ _ hs hstep => Scanner.count?_step hs hstep) rfl hrun).1
    exact ⟨t, hrun, rfl, hframes, by rw [hcount, Nesting.depth, hframes]; rfl⟩
  parses := by
    cases closes_of_read h (.done _) with
    | rest _ hlast hrest =>
      rw [hlast]
      exact hrest
    | innermost _ hopen => cases hopen
  closed n s hs hopen := by
    cases closes_of_read h hs with
    | rest hnil => exact absurd hnil hopen
    | @innermost _ t phrase ts hcomes hphrase? hphrase hcloses =>
      have hprefix := hcloses.spots_prefix
      refine ⟨phrase, ts, t, hphrase?, hphrase, hcomes, hprefix, fun us hus hprefix' => ?_⟩
      obtain ⟨bs, hbs⟩ := hprefix'
      obtain ⟨cs, hcs⟩ := hprefix
      rw [hcomes.tokens, ← hbs, List.append_assoc, List.append_assoc] at hcs
      exact hus.unique hphrase (List.append_cancel_left hcs).symm (by simp [isRun_of_openPhrase? hphrase?])

/-- No source is refused for a closing tag, each of which is directly on the children that it closes, and in every
source that is read tags, elements, brackets and substitutions nest. -/
theorem markup_nests (source : List Char) :
    (∀ e, Stream.read source = .error (.rejected e) → e.fault.message ≠ "unexpected JSX closing tag") ∧
    (∀ n s, (Scanner.start source).Steps n s → ∀ above below, s.nesting.frames = above ++ .tag true :: below →
      ∃ fs, below = .children :: fs) ∧
    ∀ r, Stream.read source = .ok r → Nests source r := by
  refine ⟨fun e he hmessage => ?_, fun n s hs above below hframes => ?_, fun r => Stream.nests_of_read⟩
  · obtain ⟨fault, offset⟩ := e
    obtain rfl := LexicalFault.eq_of_message hmessage
    exact Stream.fault_of_read he rfl
  · have hstacked := hs.wellStacked
    rw [hframes] at hstacked
    exact hstacked.children_of_tag

/-- An element as an attribute, and one in a template behind a less-than sign that begins none. -/
theorem markup_nests_attributes :
    let source := "x = <a b=<c/> d=\x7by < `$\x7b<e>t</e>\x7d`\x7d>u</a>;".toList
    ∃ r, Stream.read source = .ok r ∧ Nests source r ∧ r.tokens.size = 30 ∧
      (r.tokens[13]?.map Token.kind) = some .less ∧ (r.tokens[15]?.map Token.kind) = some .less := by
  intro source
  obtain ⟨r, hr, hread⟩ := exists_ok_of_test (x := Stream.read source) (fun r =>
    r.tokens.size = 30 && r.tokens[13]?.map Token.kind = some .less && r.tokens[15]?.map Token.kind = some .less)
    (by decide +kernel)
  simp only [Bool.and_eq_true, decide_eq_true_eq] at hread
  exact ⟨r, hr, (markup_nests source).2.2 r hr, hread.1.1, hread.1.2, hread.2⟩

end ModuleLowering
