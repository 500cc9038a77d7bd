import ModuleLowering.Proofs.Lowering.Allocation
import ModuleLowering.Proofs.Lowering.Holders
import ModuleLowering.Proofs.Lowering.ReferenceEdits

namespace ModuleLowering

open Text

/-- What the variable of an access to an imported value is: a variable of the module's own, which no name of
the source can rebind, or for a default export the first namespace imported from the same module. -/
inductive Hygienic (s : Stream) (m : SourceModule) (rs : Requirements) (o : Origin) (holder : String) : Prop
  | synthetic {r : Requirement} (hr : r ∈ rs.records) (hspecifier : r.specifier = o.specifier)
      (hholder : holder ∈ r.holders) (hfresh : ∀ k, s.identifier? k ≠ some holder)
  | fromNamespace (hdefault : o.imported = .default)
      (hfirst : ((itemsFor o.specifier m.items).filterMap (·.namespaceName?)).head? = some holder)
      (horigin : m.bindings.origin? holder = some ⟨o.specifier, .everything⟩)

namespace Requirements

theorem hygienic_of_access {s : Stream} {m : SourceModule} (hm : s.toModule = .ok m) {o : Origin} {a : Access}
    (h : ((ofItems m.items).allocate (.ofStream s)).1.access o = some a) :
    Hygienic s m ((ofItems m.items).allocate (.ofStream s)).1 o a.holder := by
  have hnamed := named_allocate m.items (.ofStream s)
  generalize ((ofItems m.items).allocate (.ofStream s)).1 = rs at h hnamed ⊢
  obtain ⟨_, htakes⟩ := hnamed.takes
  obtain ⟨r, hr, hspecifier, hholder | ⟨hdefault, hfirst⟩⟩ := holder_of_access h
  · exact .synthetic hr hspecifier hholder (htakes.not_identifier (mem_names_of_holders hr hholder))
  · have hgathers := hnamed.gathers r hr
    have horigin := (Stream.binds_of_toModule hm).origin _
      (hgathers.mem_importedNames (List.mem_of_mem_head? hfirst))
    rw [hgathers.namespaces] at hfirst
    rw [hspecifier] at hfirst horigin
    exact .fromNamespace hdefault hfirst horigin

end Requirements

/-- No name of the source, wherever it stands, is spelled like the variable that a rewritten reference reads,
unless the reference is to a default export that is read through a namespace of the same module. -/
theorem Context.references_hygienic (source : List Char) {s : Stream} {m : SourceModule} (hm : s.toModule = .ok m)
    {spans : List Span} {es : List Edit}
    (h : ((Context.ofModule source s m true).referencesEdits spans).toExcept = .ok es) {e : Edit} (he : e ∈ es) :
    ∃ i t o access, (Context.ofModule source s m true).Rewritten i t o access ∧
      e = ⟨t.span, (s.referenceForm i t).render t.text access⟩ ∧
      Hygienic s m (Context.ofModule source s m true).requirements o access.holder := by
  obtain ⟨i, t, o, access, hrewritten, he⟩ := Context.rewritten_of_mem h he
  exact ⟨i, t, o, access, hrewritten, he, Requirements.hygienic_of_access hm hrewritten.access⟩

theorem Context.reference_hygienic_named : ∃ s m es e,
    scan "import \x7b a \x7d from 'm';\nfunction f(_m) \x7b return a; \x7d".toList = .ok s ∧ s.toModule = .ok m ∧
      ((Context.ofModule "import \x7b a \x7d from 'm';\nfunction f(_m) \x7b return a; \x7d".toList s m
        true).referencesEdits (m.items.filterMap consumedSpan)).toExcept = .ok es ∧ e ∈ es ∧
      e.text = "(0, _m2.a)" ∧ ∀ k, s.identifier? k ≠ some "_m2" := by
  obtain ⟨s, m, hs, hm, h⟩ := exists_of_acceptsModule
    "import \x7b a \x7d from 'm';\nfunction f(_m) \x7b return a; \x7d".toList
    (fun s m =>
      let x := Context.ofModule "import \x7b a \x7d from 'm';\nfunction f(_m) \x7b return a; \x7d".toList s m true
      (match (x.referencesEdits (m.items.filterMap consumedSpan)).toExcept with
        | .ok [e] => e.text = "(0, _m2.a)"
        | .ok [] | .ok (_ :: _ :: _) | .error _ => false) &&
      m.items.all (·.namespaceName?.isNone) &&
      s.tokens.all fun t => (x.bindings.origin? t.text).all fun o =>
        (x.requirements.access o).all (·.holder = "_m2")) (by decide +kernel)
  simp only [Bool.and_eq_true, List.all_eq_true, Array.all_eq_true_iff_forall_mem, Option.all_eq_true,
    decide_eq_true_eq] at h
  obtain ⟨⟨hes, hspaces⟩, hholder⟩ := h
  split at hes
  · rename_i e hok
    obtain ⟨i, t, o, access, hrewritten, _, hhygienic⟩ := references_hygienic _ hm hok List.mem_cons_self
    have hname := hholder t (Array.mem_of_getElem? hrewritten.token) o hrewritten.origin access hrewritten.access
    refine ⟨s, m, _, e, hs, hm, hok, List.mem_cons_self, of_decide_eq_true hes, fun k hk => ?_⟩
    cases hhygienic with
    | synthetic _ _ _ hfresh => exact hfresh k (hname ▸ hk)
    | fromNamespace _ hfirst =>
      obtain ⟨item, hitem, hspace⟩ := List.mem_filterMap.1 (List.mem_of_mem_head? hfirst)
      have hnone := hspaces item (List.mem_of_mem_filter hitem)
      rw [hspace] at hnone
      cases hnone
  all_goals cases hes

/-- The parameter rebinds the namespace that the rewritten `d` is read through. -/
theorem Context.reference_captured : ∃ s m es t u,
    scan "import d, * as n from 'm';\nfunction f(n) \x7b return d; \x7d\n".toList = .ok s ∧
      s.toModule = .ok m ∧
      ((Context.ofModule "import d, * as n from 'm';\nfunction f(n) \x7b return d; \x7d\n".toList s m
        true).referencesEdits (m.items.filterMap consumedSpan)).toExcept = .ok es ∧
      s.tokens[16]? = some t ∧ t.isWord "d" ∧ es = [⟨t.span, "(0, n.default)"⟩] ∧
      s.tokens[12]? = some u ∧ u.isWord "n" ∧ u.role = some .declaration := by
  obtain ⟨s, m, hs, hm, h⟩ := exists_of_acceptsModule
    "import d, * as n from 'm';\nfunction f(n) \x7b return d; \x7d\n".toList
    (fun s m => s.tokens[12]?.any (fun u => u.isWord "n" && u.role = some .declaration) &&
      s.tokens[16]?.any (fun t => t.isWord "d" &&
        match ((Context.ofModule "import d, * as n from 'm';\nfunction f(n) \x7b return d; \x7d\n".toList s m
          true).referencesEdits (m.items.filterMap consumedSpan)).toExcept with
        | .ok es => es = [⟨t.span, "(0, n.default)"⟩]
        | .error _ => false)) (by decide +kernel)
  simp only [Bool.and_eq_true, Option.any_eq_true, decide_eq_true_eq] at h
  obtain ⟨⟨u, hu, hparameter, hrole⟩, t, ht, hname, hes⟩ := h
  split at hes
  · rename_i es hok
    exact ⟨s, m, es, t, u, hs, hm, hok, ht, hname, of_decide_eq_true hes, hu, hparameter, hrole⟩
  · cases hes

end ModuleLowering
