import ModuleLowering.Command.Path

/-!
A tree of files. Every place in it is named by the names from the root down; a place is a folder if
it is listed as one, is the home folder, or lies above one or above a file. There are no links, and
what is found can be read: a file that has to be read can only fail to be text.
-/

namespace ModuleLowering.Command

abbrev Trail := List String

/-- Whether a trail comes before another: by the code points of the first names that differ, and a folder
before what is below it. -/
def Trail.isBefore (a b : Trail) : Bool :=
  a.lex b fun x y => x.toList.lex y.toList fun c d => c.toNat < d.toNat

structure FileTree where
  home : Trail
  files : List (Trail × ByteArray)
  folders : List Trail

namespace FileTree

def file? (t : FileTree) (place : Trail) : Option ByteArray := t.files.lookup place

def isFolder (t : FileTree) (place : Trail) : Bool :=
  place.isPrefixOf t.home || t.folders.any (place.isPrefixOf ·) ||
    t.files.any fun (file, _) => place.isPrefixOf file && place.length < file.length

/-- Goes from a place along segments. Only a folder can be left, even to stay where one is. -/
def go? (t : FileTree) (place : Trail) : List String → Option Trail
  | [] => some place
  | segment :: rest =>
    if !t.isFolder place then none
    else if Path.isIdle segment then t.go? place rest
    else if segment = ".." then t.go? place.dropLast rest
    else t.go? (place ++ [segment]) rest

def origin (t : FileTree) (path : String) : Trail × List String :=
  match Path.segments path with
  | "" :: rest => ([], rest)
  | segments => (t.home, segments)

def locate? (t : FileTree) (path : String) : Option Trail :=
  if Path.isUsable path then
    let (place, segments) := t.origin path
    t.go? place segments
  else none

def read? (t : FileTree) (path : String) : Option ByteArray := (t.locate? path).bind t.file?

def below (t : FileTree) (folder : Trail) : List (Trail × ByteArray) :=
  t.files.filterMap fun (file, contents) =>
    if folder.isPrefixOf file then some (file.drop folder.length, contents) else none

theorem mem_below_iff {t : FileTree} {folder names : Trail} {contents : ByteArray} :
    (names, contents) ∈ t.below folder ↔ (folder ++ names, contents) ∈ t.files := by
  simp only [below, List.mem_filterMap, Prod.exists]
  constructor
  · rintro ⟨file, old, hmem, h⟩
    split at h
    · rename_i hp
      obtain ⟨rest, rfl⟩ := List.isPrefixOf_iff_prefix.mp hp
      cases h
      simpa using hmem
    · cases h
  · intro hmem
    refine ⟨folder ++ names, contents, hmem, ?_⟩
    rw [if_pos (List.isPrefixOf_iff_prefix.mpr (List.prefix_append _ _))]
    simp

def put (t : FileTree) (place : Trail) (contents : ByteArray) : FileTree :=
  { t with files := (place, contents) :: t.files.filter (·.1 ≠ place) }

theorem file?_put (t : FileTree) (place other : Trail) (contents : ByteArray) :
    (t.put place contents).file? other = if other = place then some contents else t.file? other := by
  simp only [file?, put, List.lookup_cons]
  by_cases h : other = place
  · simp [h]
  · simp only [beq_false_of_ne h, if_neg h]
    induction t.files with
    | nil => rfl
    | cons f fs ih =>
      obtain ⟨name, old⟩ := f
      by_cases hf : name = place
      · rw [List.filter_cons_of_neg (by simp [hf]), ih, List.lookup_cons, hf, beq_false_of_ne h]
      · rw [List.filter_cons_of_pos (by simp [hf]), List.lookup_cons, List.lookup_cons, ih]

def makeFolders? (t : FileTree) (place : Trail) : List String → Option FileTree
  | [] => some t
  | segment :: rest =>
    if Path.isIdle segment then t.makeFolders? place rest
    else if segment = ".." then t.makeFolders? place.dropLast rest
    else
      let next := place ++ [segment]
      if (t.file? next).isSome then none
      else { t with folders := next :: t.folders }.makeFolders? next rest

def makeFolder? (t : FileTree) (path : String) : Option FileTree :=
  if path = "" then some t
  else if Path.isUsable path then
    let (place, segments) := t.origin path
    t.makeFolders? place segments
  else none

end FileTree

end ModuleLowering.Command
