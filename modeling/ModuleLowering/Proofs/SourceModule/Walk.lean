import Mathlib.Logic.Relation
import ModuleLowering.Proofs.Statement.ExportForm
import ModuleLowering.SourceModule.Basic

/-!
The walk over the tokens of a source as steps from index to index, and the statements that it reads on its
way, each with the index of its keyword and the index after it.
-/

namespace ModuleLowering

open Text

def ExportStatement.start : ExportStatement → Nat
  | defaultExpression keywords | defaultNamed keywords _ _ | defaultAnonymous keywords _ => keywords.start
  | variableList keyword _ _ | declaration _ keyword _ _ => keyword.start
  | names span _ | namesFrom span _ _ => span.start

def ModuleItem.start : ModuleItem → Nat
  | imports st => st.span.start
  | exports st => st.start

namespace Stream

def isStatementKeyword (s : Stream) (i : Nat) (t : Token) : Bool :=
  t.isTopLevel && (t.kind = .keyword .«export» || (t.kind = .keyword .«import» && !s.isImportExpression i))

theorem isModuleKeyword_of_isStatementKeyword {s : Stream} {i : Nat} {t : Token}
    (h : s.isStatementKeyword i t) : t.isModuleKeyword := by
  simp only [isStatementKeyword, Bool.and_eq_true, Bool.or_eq_true, decide_eq_true_eq] at h
  obtain ⟨htop, hk | ⟨hk, _⟩⟩ := h <;> simp [Token.isModuleKeyword, Kind.isModuleKeyword, htop, hk]

inductive VisitForm (s : Stream) (i : Nat) (t : Token) (m : SourceModule) : SourceModule → Nat → Prop
  | inner (ht : t.isTopLevel = false) : VisitForm s i t m m (i + 1)
  | imports {st : ImportStatement} {n : SourceModule} {j : Nat} (ht : t.isTopLevel)
      (hk : t.kind = .keyword .«import») (he : ¬ s.isImportExpression i)
      (hi : s.importStatement i = .ok (st, j)) (hn : m.addImport st = .ok n) : VisitForm s i t m n j
  | exports {st : ExportStatement} {j : Nat} (ht : t.isTopLevel) (hk : t.kind = .keyword .«export»)
      (hi : s.ExportForm i st j) : VisitForm s i t m (m.addExport st) j
  | declares (ht : t.isTopLevel) (hk : t.kind ≠ .keyword .«export»)
      (he : t.kind = .keyword .«import» → s.isImportExpression i) :
      VisitForm s i t m (m.declareAll (s.declaredAt i t.kind).1) (s.declaredAt i t.kind).2

theorem visitForm_of_visit {s : Stream} {i j : Nat} {t : Token} {m n : SourceModule}
    (h : s.visit i t m = .ok (n, j)) : s.VisitForm i t m n j := by
  unfold visit at h
  split at h
  · rename_i ht
    cases h
    exact .inner (by simpa using ht)
  · rename_i ht
    have htop : t.isTopLevel = true := by simpa using ht
    split at h
    · rename_i hk
      simp only [Bool.and_eq_true, decide_eq_true_eq, Bool.not_eq_true'] at hk
      split at h
      · cases h
      · rename_i hi
        obtain ⟨n', hn, he⟩ := map_eq_ok_iff.1 h
        cases he
        exact .imports htop hk.1 (by simp [hk.2]) hi hn
    · rename_i himport
      split at h
      · rename_i hk
        obtain ⟨⟨st, k⟩, hi, he⟩ := map_eq_ok_iff.1 h
        cases he
        exact .exports htop hk (exportForm_of_exportStatement hi)
      · rename_i hk
        cases h
        refine .declares htop hk fun hkey => ?_
        simpa [hkey] using himport

def Visits (s : Stream) (p q : Nat × SourceModule) : Prop :=
  ∃ t, s.tokens[p.1]? = some t ∧ s.visit p.1 t p.2 = .ok (q.2, q.1)

def Comes (s : Stream) (i : Nat) (m : SourceModule) : Prop :=
  Relation.ReflTransGen s.Visits (0, .empty) (i, m)

theorem comes_zero (s : Stream) : s.Comes 0 .empty := .refl

variable {s : Stream}

theorem Visits.lt {p q : Nat × SourceModule} (h : s.Visits p q) : p.1 < q.1 := by
  obtain ⟨_, _, hv⟩ := h
  exact lt_of_visit hv

theorem visits_rightUnique : Relator.RightUnique s.Visits := by
  intro p ⟨i, m⟩ ⟨j, n⟩ ⟨t, ht, hq⟩ ⟨u, hu, hr⟩
  rw [ht] at hu
  cases hu
  rw [hq] at hr
  cases hr
  rfl

theorem le_of_visits {p q : Nat × SourceModule} (h : Relation.ReflTransGen s.Visits p q) : p.1 ≤ q.1 := by
  induction h with
  | refl => exact Nat.le_refl _
  | tail _ hstep ih => exact Nat.le_trans ih (Nat.le_of_lt hstep.lt)

theorem Comes.visits_of_lt {i j : Nat} {m n : SourceModule} (hi : s.Comes i m) (hj : s.Comes j n)
    (hij : i < j) : ∃ q, s.Visits (i, m) q ∧ q.1 ≤ j := by
  rcases Relation.ReflTransGen.total_of_right_unique visits_rightUnique hi hj with h | h
  · rcases h.cases_head with heq | ⟨q, hq, hrest⟩
    · have := congrArg Prod.fst heq
      dsimp only at this
      omega
    · exact ⟨q, hq, le_of_visits hrest⟩
  · have := le_of_visits h
    dsimp only at this
    omega

theorem comes_of_moduleFrom {i : Nat} {m n : SourceModule} (hi : s.Comes i m)
    (h : s.moduleFrom i m = .ok n) : ∃ stop, s.Comes stop n ∧ s.tokens.size ≤ stop := by
  fun_induction moduleFrom s i m with
  | case1 i m hget =>
    cases h
    exact ⟨i, hi, by simpa using hget⟩
  | case2 => cases h
  | case3 i m t ht m' j hv ih => exact ih (hi.tail ⟨t, ht, hv⟩) h

theorem comes_of_toModule {m : SourceModule} (h : s.toModule = .ok m) :
    ∃ stop, s.Comes stop m ∧ s.tokens.size ≤ stop := comes_of_moduleFrom s.comes_zero h

structure Reading where
  first : Nat
  next : Nat
  item : ModuleItem

inductive Reads (s : Stream) : Reading → Prop
  | imports {i j : Nat} {t : Token} {st : ImportStatement} (ht : s.tokens[i]? = some t) (htop : t.isTopLevel)
      (hk : t.kind = .keyword .«import») (hi : s.importStatement i = .ok (st, j)) : Reads s ⟨i, j, .imports st⟩
  | exports {i j : Nat} {t : Token} {st : ExportStatement} (ht : s.tokens[i]? = some t) (htop : t.isTopLevel)
      (hk : t.kind = .keyword .«export») (hi : s.ExportForm i st j) : Reads s ⟨i, j, .exports st⟩

theorem Reads.first_lt_size {r : Reading} (h : s.Reads r) : r.first < s.tokens.size := by
  cases h with
  | imports ht | exports ht => exact lt_size_of_getElem? ht

theorem VisitForm.items {i j : Nat} {t : Token} {m n : SourceModule} (h : s.VisitForm i t m n j)
    (ht : s.tokens[i]? = some t) :
    (n.items = m.items ∧ s.isStatementKeyword i t = false) ∨
      ∃ item, n.items = m.items ++ [item] ∧ s.Reads ⟨i, j, item⟩ := by
  cases h with
  | inner htop => exact .inl ⟨rfl, by simp [isStatementKeyword, htop]⟩
  | @imports st _ _ htop hk _ hi hn =>
    right
    obtain ⟨bindings, _, rfl⟩ := map_eq_ok_iff.1 hn
    exact ⟨.imports st, rfl, .imports ht htop hk hi⟩
  | @exports st _ htop hk hi => exact .inr ⟨.exports st, rfl, .exports ht htop hk hi⟩
  | declares _ hk he =>
    refine .inl ⟨rfl, ?_⟩
    by_cases himport : t.kind = .keyword .«import»
    · simp [isStatementKeyword, hk, he himport]
    · simp [isStatementKeyword, hk, himport]

structure Readings (s : Stream) (stop : Nat) (items : List ModuleItem) (rs : List Reading) : Prop where
  items_eq : items = rs.map (·.item)
  reads : ∀ r ∈ rs, s.Reads r
  comes : ∀ r ∈ rs, ∃ m, s.Comes r.first m
  lt : ∀ r ∈ rs, r.first < r.next
  next_le : ∀ r ∈ rs, r.next ≤ stop
  ordered : rs.Pairwise fun r r' => r.next ≤ r'.first
  complete : ∀ i m t, s.Comes i m → i < stop → s.tokens[i]? = some t → s.isStatementKeyword i t →
    ∃ r ∈ rs, r.first = i

theorem readings_nil (s : Stream) : s.Readings 0 [] [] where
  items_eq := rfl
  reads := by simp
  comes := by simp
  lt := by simp
  next_le := by simp
  ordered := .nil
  complete := by intro i _ _ _ hi; omega

theorem Comes.lt_or_eq {i k : Nat} {m n : SourceModule} {q : Nat × SourceModule} (hi : s.Comes i m)
    (hq : s.Visits (i, m) q) (hk : s.Comes k n) (hkq : k < q.1) : k < i ∨ k = i := by
  refine Nat.lt_or_eq_of_le (Nat.le_of_not_lt fun hik => ?_)
  obtain ⟨q', hq', hle⟩ := hi.visits_of_lt hk hik
  rw [visits_rightUnique hq hq'] at hkq
  omega

namespace Readings

variable {i : Nat} {m : SourceModule} {rs : List Reading} {q : Nat × SourceModule} {t : Token}

theorem skip (h : s.Readings i m.items rs) (hi : s.Comes i m) (hq : s.Visits (i, m) q)
    (ht : s.tokens[i]? = some t) (hitems : q.2.items = m.items) (hkey : s.isStatementKeyword i t = false) :
    s.Readings q.1 q.2.items rs := by
  have hlt : i < q.1 := hq.lt
  refine ⟨hitems ▸ h.items_eq, h.reads, h.comes, h.lt, fun r hr => ?_, h.ordered, ?_⟩
  · have := h.next_le r hr
    omega
  · intro k n u hk hkq hu hukey
    rcases hi.lt_or_eq hq hk hkq with hki | rfl
    · exact h.complete k n u hk hki hu hukey
    · rw [ht] at hu
      cases hu
      rw [hkey] at hukey
      cases hukey

theorem snoc (h : s.Readings i m.items rs) (hi : s.Comes i m) (hq : s.Visits (i, m) q) {item : ModuleItem}
    (hitems : q.2.items = m.items ++ [item]) (hreads : s.Reads ⟨i, q.1, item⟩) :
    s.Readings q.1 q.2.items (rs ++ [⟨i, q.1, item⟩]) := by
  have hlt : i < q.1 := hq.lt
  constructor
  · rw [hitems, h.items_eq, List.map_append, List.map_cons, List.map_nil]
  · exact List.forall_mem_append.2 ⟨h.reads, List.forall_mem_singleton.2 hreads⟩
  · exact List.forall_mem_append.2 ⟨h.comes, List.forall_mem_singleton.2 ⟨m, hi⟩⟩
  · exact List.forall_mem_append.2 ⟨h.lt, List.forall_mem_singleton.2 hlt⟩
  · refine List.forall_mem_append.2 ⟨fun r hr => ?_, List.forall_mem_singleton.2 (Nat.le_refl _)⟩
    have := h.next_le r hr
    omega
  · refine List.pairwise_append.2 ⟨h.ordered, List.pairwise_singleton _ _, ?_⟩
    intro r hr r' hr'
    rw [List.mem_singleton.1 hr']
    exact h.next_le r hr
  · intro k n u hk hkq hu hukey
    rcases hi.lt_or_eq hq hk hkq with hki | rfl
    · obtain ⟨r, hr, hrk⟩ := h.complete k n u hk hki hu hukey
      exact ⟨r, List.mem_append_left _ hr, hrk⟩
    · exact ⟨⟨k, q.1, item⟩, by simp, rfl⟩

theorem visit (h : s.Readings i m.items rs) (hi : s.Comes i m) (hq : s.Visits (i, m) q) :
    ∃ rs', s.Readings q.1 q.2.items rs' := by
  obtain ⟨t, ht, hv⟩ := id hq
  rcases (visitForm_of_visit hv).items ht with ⟨hitems, hkey⟩ | ⟨item, hitems, hreads⟩
  · exact ⟨rs, h.skip hi hq ht hitems hkey⟩
  · exact ⟨rs ++ [⟨i, q.1, item⟩], h.snoc hi hq hitems hreads⟩

end Readings

theorem Comes.readings {i : Nat} {m : SourceModule} (h : s.Comes i m) : ∃ rs, s.Readings i m.items rs := by
  unfold Comes at h
  generalize hp : (i, m) = p at h
  induction h generalizing i m with
  | refl =>
    cases hp
    exact ⟨[], s.readings_nil⟩
  | tail hwalk hstep ih =>
    obtain ⟨rs, hrs⟩ := ih rfl
    subst hp
    exact hrs.visit hwalk hstep

theorem readings_of_toModule {m : SourceModule} (h : s.toModule = .ok m) :
    ∃ stop rs, s.Readings stop m.items rs := by
  obtain ⟨stop, hcomes, _⟩ := comes_of_toModule h
  exact ⟨stop, hcomes.readings⟩

theorem Reads.start_eq {r : Reading} (h : s.Reads r) : r.item.start = s.offsetAt r.first := by
  cases h with
  | imports _ _ _ hi =>
    unfold importStatement at hi
    split at hi
    · cases hi
    · split at hi <;> cases hi
      rfl
  | exports _ _ _ hi => cases hi <;> rfl

theorem Readings.starts {stop : Nat} {items : List ModuleItem} {rs : List Reading}
    (h : s.Readings stop items rs) : items.map ModuleItem.start = rs.map fun r => s.offsetAt r.first := by
  rw [h.items_eq, List.map_map]
  exact List.map_congr_left fun r hr => (h.reads r hr).start_eq

theorem Readings.starts_ordered {source : List Char} {stop : Nat} {items : List ModuleItem}
    {rs : List Reading} (h : s.Readings stop items rs) (hs : s.WellFormed source) :
    (items.map ModuleItem.start).Pairwise (· < ·) := by
  rw [h.starts, List.pairwise_map]
  apply h.ordered.imp_of_mem
  intro r r' hr hr' hle
  have := h.lt r hr
  have := (h.reads r' hr').first_lt_size
  exact hs.offsetAt_lt_offsetAt (by omega) (by omega)

end Stream

def acceptsModule (source : List Char) (test : Stream → SourceModule → Bool) : Bool :=
  match scan source with
  | .error _ => false
  | .ok s =>
    match s.toModule with
    | .error _ => false
    | .ok m => test s m

theorem exists_of_acceptsModule (source : List Char) (test : Stream → SourceModule → Bool)
    (h : acceptsModule source test = true) :
    ∃ s m, scan source = .ok s ∧ s.toModule = .ok m ∧ test s m = true := by
  unfold acceptsModule at h
  split at h
  · cases h
  · rename_i s hs
    split at h
    · cases h
    · rename_i m hm
      exact ⟨s, m, hs, hm, h⟩

end ModuleLowering
