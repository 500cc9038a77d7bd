import ModuleLowering.Proofs.Lowering.StatementEdits
import ModuleLowering.Proofs.Text.Between

namespace ModuleLowering

open Text

theorem outsideSpans_sublist (spans : List Span) (names : List (Token × Nat)) :
    (outsideSpans spans names).Sublist names := by
  induction names generalizing spans with
  | nil => simp [outsideSpans]
  | cons name names ih =>
    obtain ⟨t, i⟩ := name
    unfold outsideSpans
    dsimp only
    split
    · exact (ih _).cons _
    · exact (ih _).cons_cons _

theorem covers_dropWhile_iff {spans : List Span} {offset later : Nat} (hle : offset ≤ later) :
    (∃ c ∈ spans.dropWhile (·.stop ≤ offset), c.Covers later) ↔ ∃ c ∈ spans, c.Covers later := by
  have hsplit := List.takeWhile_append_dropWhile (p := fun c : Span => c.stop ≤ offset) (l := spans)
  constructor
  · rintro ⟨c, hc, hcovers⟩
    exact ⟨c, (List.dropWhile_sublist _).subset hc, hcovers⟩
  · rintro ⟨c, hc, hcovers⟩
    refine ⟨c, ?_, hcovers⟩
    rw [← hsplit, List.mem_append] at hc
    refine hc.resolve_left fun hdropped => ?_
    have hstop := of_decide_eq_true (List.all_eq_true.1 List.all_takeWhile c hdropped)
    have := hcovers.2
    omega

theorem head_dropWhile_iff {spans : List Span} (hspans : spans.Pairwise fun a b => a.start ≤ b.start)
    (offset : Nat) :
    (spans.dropWhile (·.stop ≤ offset)).head?.any (·.start ≤ offset) ↔ ∃ c ∈ spans, c.Covers offset := by
  rw [← covers_dropWhile_iff (Nat.le_refl offset)]
  have hsorted := hspans.sublist (List.dropWhile_sublist fun c : Span => c.stop ≤ offset)
  have hfirst := List.head?_dropWhile_not (fun c : Span => decide (c.stop ≤ offset)) spans
  cases hrest : spans.dropWhile (·.stop ≤ offset) with
  | nil => simp
  | cons d ds =>
    rw [hrest] at hsorted hfirst
    simp only [List.head?_cons, decide_eq_false_iff_not, Nat.not_le] at hfirst
    simp only [List.head?_cons, Option.any_some, decide_eq_true_eq]
    constructor
    · exact fun hstart => ⟨d, List.mem_cons_self, hstart, hfirst⟩
    · rintro ⟨c, hc, hcovers⟩
      rcases List.mem_cons.1 hc with rfl | hc
      · exact hcovers.1
      · exact Nat.le_trans ((List.pairwise_cons.1 hsorted).1 c hc) hcovers.1

theorem outsideSpans_eq_filter {spans : List Span} {names : List (Token × Nat)}
    (hspans : spans.Pairwise fun a b => a.start ≤ b.start)
    (hnames : names.Pairwise fun a b => a.1.start ≤ b.1.start) :
    outsideSpans spans names = names.filter fun n => ∀ c ∈ spans, ¬ c.Covers n.1.start := by
  induction names generalizing spans with
  | nil => simp [outsideSpans]
  | cons name names ih =>
    obtain ⟨t, i⟩ := name
    obtain ⟨hle, hnames⟩ := List.pairwise_cons.1 hnames
    have htail : outsideSpans (spans.dropWhile (·.stop ≤ t.start)) names =
        names.filter fun n => ∀ c ∈ spans, ¬ c.Covers n.1.start := by
      rw [ih (hspans.sublist (List.dropWhile_sublist _)) hnames]
      refine List.filter_congr fun n hn => ?_
      have hiff := not_congr (@covers_dropWhile_iff spans _ _ (hle n hn))
      simpa only [not_exists, not_and, decide_eq_decide] using hiff
    have hhead := head_dropWhile_iff hspans t.start
    unfold outsideSpans
    dsimp only
    by_cases hcovered : ∃ c ∈ spans, c.Covers t.start
    · rw [if_pos (hhead.2 hcovered), htail, List.filter_cons_of_neg (by simpa using hcovered)]
    · rw [if_neg (mt hhead.1 hcovered), htail, List.filter_cons_of_pos (by simpa using hcovered)]

theorem mem_outsideSpans_iff {spans : List Span} {names : List (Token × Nat)} {t : Token} {i : Nat}
    (hspans : spans.Pairwise fun a b => a.start ≤ b.start)
    (hnames : names.Pairwise fun a b => a.1.start ≤ b.1.start) :
    (t, i) ∈ outsideSpans spans names ↔
      (t, i) ∈ names ∧ ∀ c ∈ spans, c.stop ≤ t.start ∨ t.start < c.start := by
  rw [outsideSpans_eq_filter hspans hnames, List.mem_filter]
  simp only [decide_eq_true_eq, Span.not_covers_iff]

theorem sorted_of_sequential {spans : List Span} (hspans : spans.Pairwise fun a b => a.stop ≤ b.start)
    (hle : ∀ c ∈ spans, c.start ≤ c.stop) : spans.Pairwise fun a b => a.start ≤ b.start :=
  hspans.imp_of_mem fun ha _ hab => Nat.le_trans (hle _ ha) hab

namespace Stream

variable {s : Stream} {source : List Char}

theorem mem_valueNames {t : Token} {k : Nat} (h : (t, k) ∈ s.valueNames) :
    s.tokens[k]? = some t ∧ t.kind = .identifier ∧ t.role.any (·.isValue) := by
  unfold valueNames at h
  obtain ⟨hmem, hname⟩ := List.mem_filter.1 h
  simp only [Bool.and_eq_true, decide_eq_true_eq] at hname
  exact ⟨by simpa using List.mem_zipIdx_iff_getElem?.1 hmem, hname⟩

theorem valueNames_ordered (s : Stream) : s.valueNames.Pairwise fun a b => a.2 < b.2 := by
  apply List.Pairwise.filter _
  rw [← List.pairwise_map (f := Prod.snd), List.zipIdx_map_snd]
  exact List.pairwise_lt_range'

theorem referenceEdits_eq {x : Context} {k : Nat} {t : Token} {es : List Edit}
    (h : x.referenceEdits k t = .ok es) :
    es = [] ∨ ∃ o access, x.bindings.origin? t.text = some o ∧ x.requirements.access o = some access ∧
      es = [⟨t.span, (x.stream.referenceForm k t).render t.text access⟩] := by
  unfold Context.referenceEdits at h
  split at h
  · cases h
    exact .inl rfl
  · rename_i o ho
    split at h
    · cases h
      exact .inl rfl
    · rename_i access haccess
      apply of_ite_eq_ok h (fun _ h => by cases h)
      intro _ h
      cases h
      exact .inr ⟨o, access, ho, haccess, rfl⟩

def Rewrites (x : Context) (spans : List Span) (i j : Nat) : Prop :=
  j = i + 1 ∧ ∃ t o, (t, i) ∈ outsideSpans spans x.stream.valueNames ∧ x.bindings.origin? t.text = some o

theorem chain_references {x : Context} {P : Nat → Nat → Prop} {names : List (Token × Nat)} {es : List Edit}
    {i : Nat} (hget : ∀ t k, (t, k) ∈ names → x.stream.tokens[k]? = some t)
    (hordered : names.Pairwise fun a b => a.2 < b.2) (hfirst : ∀ n ∈ names, i ≤ n.2)
    (hi : i ≤ x.stream.tokens.size)
    (hP : ∀ t k o, (t, k) ∈ names → x.bindings.origin? t.text = some o → P k (k + 1))
    (h : (Progress.collect (names.map fun (t, k) => x.referenceEdits k t)).toExcept = .ok es) :
    x.stream.Chain P i x.stream.tokens.size (es.map (·.span)) := by
  induction names generalizing i es with
  | nil =>
    cases h
    exact .nil hi
  | cons name names ih =>
    obtain ⟨t, k⟩ := name
    obtain ⟨first, rest, hfirstEdits, hrest, rfl⟩ := Progress.cons_of_collect h
    obtain ⟨hbefore, hordered⟩ := List.pairwise_cons.1 hordered
    have ht := hget t k List.mem_cons_self
    have hk := hfirst _ List.mem_cons_self
    have htail := ih (i := k + 1) (fun u n hu => hget u n (List.mem_cons_of_mem _ hu)) hordered
      (fun n hn => hbefore n hn) (lt_size_of_getElem? ht)
      (fun u n o hu => hP u n o (List.mem_cons_of_mem _ hu)) hrest
    rw [List.map_append]
    rcases referenceEdits_eq hfirstEdits with rfl | ⟨o, _, ho, _, rfl⟩
    · exact htail.mono_left (by dsimp only at hk; omega)
    · rw [List.map_cons, List.map_nil, span_eq_spanOf ht]
      exact .cons hk (Nat.le_succ k) (hP t k o List.mem_cons_self ho) htail

theorem chain_referencesEdits {x : Context} {spans : List Span} {es : List Edit}
    (h : (x.referencesEdits spans).toExcept = .ok es) :
    x.stream.Chain (Rewrites x spans) 0 x.stream.tokens.size (es.map (·.span)) := by
  have hsub := outsideSpans_sublist spans x.stream.valueNames
  refine chain_references (fun t k hmem => (mem_valueNames (hsub.subset hmem)).1)
    (x.stream.valueNames_ordered.sublist hsub) (fun _ _ => Nat.zero_le _) (Nat.zero_le _)
    (fun t k o hmem ho => ⟨rfl, t, o, hmem, ho⟩) h

end Stream

namespace Context

structure Rewritten (x : Context) (i : Nat) (t : Token) (o : Origin) (access : Access) : Prop where
  token : x.stream.tokens[i]? = some t
  name : t.kind = .identifier
  origin : x.bindings.origin? t.text = some o
  access : x.requirements.access o = some access

theorem rewritten_of_mem {x : Context} {spans : List Span} {es : List Edit}
    (h : (x.referencesEdits spans).toExcept = .ok es) {e : Edit} (he : e ∈ es) :
    ∃ i t o access, x.Rewritten i t o access ∧
      e = ⟨t.span, (x.stream.referenceForm i t).render t.text access⟩ := by
  obtain ⟨fs, hfs, he⟩ := Progress.exists_of_mem_collect h he
  obtain ⟨⟨t, i⟩, hmem, hfs⟩ := List.mem_map.1 hfs
  obtain ⟨ht, hname, _⟩ := Stream.mem_valueNames ((outsideSpans_sublist _ _).subset hmem)
  rcases Stream.referenceEdits_eq hfs with rfl | ⟨o, access, ho, haccess, rfl⟩
  · cases he
  · exact ⟨i, t, o, access, ⟨ht, hname, ho, haccess⟩, List.mem_singleton.1 he⟩

end Context

end ModuleLowering
