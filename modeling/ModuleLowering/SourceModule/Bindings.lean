import ModuleLowering.Statement.Import

/-!
The names that a module binds at its top level, in the order in which they first occur. An import
takes precedence over a declaration of the same name; two imports of one name are an error.
-/

namespace ModuleLowering

inductive Imported
  | default
  | named (name : ModuleName)
  | everything
  deriving DecidableEq

structure Origin where
  specifier : String
  imported : Imported
  deriving DecidableEq

structure Binding where
  name : String
  origin : Option Origin
  deriving DecidableEq

structure Bindings where
  entries : List Binding
  deriving DecidableEq

def NamedImport.what (n : NamedImport) : Imported :=
  if n.imported.isDefault then .default else .named n.imported

def ImportClause.bound (c : ImportClause) : List (String × Imported) :=
  (c.defaultName.map (·, Imported.default)).toList ++
    (c.namespaceName.map (·, Imported.everything)).toList ++
    c.named.map fun n => (n.binding, n.what)

namespace Bindings

def empty : Bindings := ⟨[]⟩

def find? (b : Bindings) (name : String) : Option Binding := b.entries.find? (·.name = name)

def origin? (b : Bindings) (name : String) : Option Origin := (b.find? name).bind (·.origin)

def insert (b : Bindings) (new : Binding) : Bindings :=
  if (b.find? new.name).isSome then
    ⟨b.entries.map fun old => if old.name = new.name then new else old⟩
  else ⟨b.entries ++ [new]⟩

def declare (b : Bindings) (name : String) : Bindings :=
  if (b.find? name).isSome then b else ⟨b.entries ++ [⟨name, none⟩]⟩

def declareAll (b : Bindings) (names : List String) : Bindings := names.foldl declare b

def bindImport (specifier : String) (offset : Nat) (b : Bindings) (bound : String × Imported) :
    Except Diagnostic Bindings :=
  if (b.origin? bound.1).isSome then refuseImport (.importedTwice bound.1) offset
  else .ok (b.insert ⟨bound.1, some ⟨specifier, bound.2⟩⟩)

def bindImports (b : Bindings) (st : ImportStatement) : Except Diagnostic Bindings :=
  st.clause.bound.foldlM (bindImport st.specifier.value st.span.start) b

theorem name_of_find? {b : Bindings} {name : String} {x : Binding} (h : b.find? name = some x) :
    x.name = name := by
  have := List.find?_some h
  simpa using this

theorem find?_insert_self (b : Bindings) (new : Binding) : (b.insert new).find? new.name = some new := by
  unfold insert
  split
  · rename_i h
    obtain ⟨old, ho⟩ := Option.isSome_iff_exists.1 h
    simp only [find?] at ho ⊢
    generalize b.entries = entries at ho
    induction entries with
    | nil => cases ho
    | cons e es ih =>
      by_cases he : e.name = new.name
      · simp [he]
      · simp only [List.find?_cons, he, decide_false] at ho
        simp only [List.map_cons, he, if_false, List.find?_cons, decide_false]
        exact ih ho
  · rename_i h
    simp only [find?, Bool.not_eq_true, Option.isSome_eq_false_iff, Option.isNone_iff_eq_none] at h ⊢
    simp [List.find?_append, h]

end Bindings

end ModuleLowering
