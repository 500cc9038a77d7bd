import ModuleLowering.Proofs.Lowering.Naming

namespace ModuleLowering

def Requirements.names (rs : Requirements) : List String :=
  rs.helperNames ++ rs.records.flatMap Requirement.holders

namespace Requirements

variable {rs : Requirements} {name : String}

theorem mem_names_of_helpers {helpers : HelperNames} (h : rs.helpers = some helpers)
    (hname : name ∈ [helpers.wildcard, helpers.default]) : name ∈ rs.names :=
  List.mem_append_left _ (by rwa [helperNames, h])

theorem mem_names_of_holders {r : Requirement} (hr : r ∈ rs.records) (hname : name ∈ r.holders) : name ∈ rs.names :=
  List.mem_append_right _ (List.mem_flatMap.2 ⟨r, hr, hname⟩)

end Requirements

namespace NameRegistry

inductive InTurn : NameRegistry → List Grant → NameRegistry → Prop
  | nil {r : NameRegistry} : InTurn r [] r
  | cons {r next final : NameRegistry} {g : Grant} {rest : List Grant} (first : r.FirstFree g.base g.name)
      (taken : ∀ name, next.contains name ↔ name = g.name ∨ r.contains name) (size : next.size = r.size + 1)
      (turns : InTurn next rest final) : InTurn r (g :: rest) final

theorem contains_allocate_iff {r : NameRegistry} {base name : String} :
    (r.allocate base).2.contains name ↔ name = (r.allocate base).1 ∨ r.contains name := by
  rw [contains_iff, contains_iff]
  exact Takes.mem_allocate

theorem size_allocate (r : NameRegistry) (base : String) : (r.allocate base).2.size = r.size + 1 :=
  List.length_insert_of_not_mem (r.fresh_not_mem base)

theorem Grants.inTurn {r r' : NameRegistry} {grants : List Grant} (h : Grants r grants r') :
    InTurn r grants r' := by
  induction h with
  | nil => exact .nil
  | @allocate r r' grants base _ ih =>
    exact .cons (r.firstFree_fresh base) (fun _ => contains_allocate_iff) (r.size_allocate base) ih

inductive Request where
  | name (base : String)
  | helpers
  | requirements (items : List ModuleItem)

def serve (r : NameRegistry) : Request → List Grant × NameRegistry
  | .name base => ([⟨base, (r.allocate base).1⟩], (r.allocate base).2)
  | .helpers => ((HelperNames.allocate r).1.grants, (HelperNames.allocate r).2)
  | .requirements items =>
    (((Requirements.ofItems items).allocate r).1.grants, ((Requirements.ofItems items).allocate r).2)

def serveAll (r : NameRegistry) : List Request → List Grant × NameRegistry
  | [] => ([], r)
  | request :: rest =>
    let (grants, next) := r.serve request
    let (more, final) := next.serveAll rest
    (grants ++ more, final)

theorem grants_serve (r : NameRegistry) (request : Request) :
    Grants r (r.serve request).1 (r.serve request).2 := by
  cases request with
  | name base => exact .allocate base .nil
  | helpers => exact .allocate _ (.allocate _ .nil)
  | requirements items =>
    have h := Requirements.gathered_ofItems items
    have hunnamed (q : Requirement) (hq : q ∈ (Requirements.ofItems items).records) : q.unnamed = q :=
      (h.records q hq).unnamed
    exact (Requirements.allocate_spec hunnamed h.helpers r).2.2.2

theorem grants_serveAll (r : NameRegistry) (requests : List Request) :
    Grants r (r.serveAll requests).1 (r.serveAll requests).2 := by
  induction requests generalizing r with
  | nil => exact .nil
  | cons request rest ih => exact (r.grants_serve request).append (ih (r.serve request).2)

theorem Takes.not_identifier {s : Stream} {names : List String} {final : NameRegistry}
    (h : Takes (ofStream s) names final) {name : String} (hname : name ∈ names) (i : Nat) :
    s.identifier? i ≠ some name :=
  fun hi => h.not_mem hname (mem_ofStream hi)

/-- Whatever is asked for in whatever order, the names come in turn from the registry of the source, differ
from each other, and are no identifiers of the source. In particular this holds of the helpers and variables
of one file. The number of a numbered name is at most one above the number of names taken. -/
theorem synthetic_names_fresh (s : Stream) (requests : List Request) (items : List ModuleItem) :
    InTurn (ofStream s) ((ofStream s).serveAll requests).1 ((ofStream s).serveAll requests).2 ∧
      (((ofStream s).serveAll requests).1.map (·.name)).Nodup ∧
      (∀ g ∈ ((ofStream s).serveAll requests).1, ∀ i, s.identifier? i ≠ some g.name) ∧
      ((Requirements.ofItems items).allocate (ofStream s)).1.names.Nodup ∧
      ∀ name ∈ ((Requirements.ofItems items).allocate (ofStream s)).1.names, ∀ i, s.identifier? i ≠ some name := by
  have hgrants := (ofStream s).grants_serveAll requests
  obtain ⟨_, htakes⟩ := (Requirements.named_allocate items (ofStream s)).takes
  refine ⟨hgrants.inTurn, hgrants.takes.nodup, fun g hg => ?_, htakes.nodup, fun name hname => ?_⟩
  · exact hgrants.takes.not_identifier (List.mem_map_of_mem hg)
  · exact htakes.not_identifier hname

end NameRegistry

end ModuleLowering
