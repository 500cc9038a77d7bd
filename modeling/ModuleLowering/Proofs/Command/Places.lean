import ModuleLowering.Command.FileTree

namespace ModuleLowering.Command

open Text

namespace Path

def IsName (name : String) : Prop := isIdle name = false ∧ name ≠ ".." ∧ '/' ∉ name.toList

instance (name : String) : Decidable (IsName name) := inferInstanceAs (Decidable (_ ∧ _))

theorem segments_ne_nil (path : String) : segments path ≠ [] := by
  simp [segments, splitText]

theorem not_mem_of_mem_segments {path segment : String} (h : segment ∈ segments path) : '/' ∉ segment.toList := by
  obtain ⟨part, hpart, rfl⟩ := List.mem_map.1 h
  rw [String.toList_ofList]
  exact not_mem_of_mem_splitOn hpart

theorem segments_append (base rest : String) : segments (base ++ "/" ++ rest) = segments base ++ segments rest := by
  have h : (base ++ "/" ++ rest).toList = base.toList ++ '/' :: rest.toList := by simp
  rw [segments, splitText, h, splitOn_append_cons, List.map_append]
  rfl

theorem segments_of_not_mem {name : String} (h : '/' ∉ name.toList) : segments name = [name] := by
  rw [segments, splitText, splitOn_of_not_mem h]
  simp

theorem segments_intercalate {names : List String} (hne : names ≠ []) (h : ∀ name ∈ names, '/' ∉ name.toList) :
    segments ("/".intercalate names) = names := by
  induction names with
  | nil => exact absurd rfl hne
  | cons name names ih =>
    have hname := segments_of_not_mem (h name List.mem_cons_self)
    cases names with
    | nil => simpa using hname
    | cons next names =>
      rw [String.intercalate_cons_cons, segments_append, hname,
        ih (by simp) fun n hn => h n (List.mem_cons_of_mem _ hn)]
      rfl

theorem segments_ofSegments {names : List String} (hne : names ≠ []) (h : ∀ name ∈ names, IsName name) :
    segments (ofSegments names) = names := by
  have hintercalate := segments_intercalate hne fun name hname => (h name hname).2.2
  unfold ofSegments
  split
  · exact absurd (h "" List.mem_cons_self).1 (by decide)
  · exact hintercalate

theorem segments_injective {path other : String} (h : segments path = segments other) : path = other := by
  have hparts : splitOn '/' path.toList = splitOn '/' other.toList :=
    (List.map_inj_right fun _ _ => String.ofList_inj.1).1 h
  have hpath := intercalate_splitOn '/' path.toList
  rw [hparts, intercalate_splitOn] at hpath
  exact String.toList_inj.1 hpath.symm

theorem join_injective {base rest other : String} (h : join base rest = join base other) : rest = other := by
  unfold join at h
  split at h <;> simpa using h

end Path

def Trail.enter (place : Trail) (segment : String) : Trail :=
  if Path.isIdle segment then place
  else if segment = ".." then place.dropLast
  else place ++ [segment]

theorem Trail.foldl_enter {names : List String} (h : ∀ name ∈ names, Path.IsName name) (place : Trail) :
    names.foldl enter place = place ++ names := by
  induction names generalizing place with
  | nil => simp
  | cons name names ih =>
    obtain ⟨hidle, hparent, _⟩ := h name List.mem_cons_self
    have henter : place.enter name = place ++ [name] := by simp [enter, hidle, hparent]
    rw [List.foldl_cons, henter, ih fun n hn => h n (List.mem_cons_of_mem _ hn), List.append_assoc]
    rfl

namespace FileTree

variable (t : FileTree)

def placeFrom : List String → Trail
  | "" :: rest => rest.foldl .enter []
  | segments => segments.foldl .enter t.home

/-- The place that a path stands for, whether or not there is anything. The empty path is the home folder. -/
def placeOf (path : String) : Trail := if path = "" then t.home else t.placeFrom (Path.segments path)

theorem placeFrom_append {segments : List String} (hne : segments ≠ []) (rest : List String) :
    t.placeFrom (segments ++ rest) = rest.foldl .enter (t.placeFrom segments) := by
  cases segments with
  | nil => exact absurd rfl hne
  | cons first segments =>
    by_cases hfirst : first = ""
    · subst hfirst
      simp [placeFrom]
    · have hcons (more : List String) : t.placeFrom (first :: more) = (first :: more).foldl .enter t.home := by
        unfold placeFrom
        split
        · rename_i heq
          exact absurd (List.cons.inj heq).1 hfirst
        · rfl
      rw [List.cons_append, hcons, hcons, ← List.cons_append, List.foldl_append]

variable {t}

theorem placeFrom_names {names : List String} (h : ∀ name ∈ names, Path.IsName name) :
    t.placeFrom names = t.home ++ names := by
  rw [← Trail.foldl_enter h]
  unfold placeFrom
  split
  · exact absurd (h "" List.mem_cons_self).1 (by decide)
  · rfl

theorem placeOf_join {names : List String} {rest : String} (h : ∀ name ∈ names, Path.IsName name)
    (hrest : Path.segments rest = names) (base : String) :
    t.placeOf (Path.join base rest) = t.placeOf base ++ names := by
  have happend (folder : String) : t.placeFrom (Path.segments folder ++ names) =
      t.placeFrom (Path.segments folder) ++ names := by
    rw [t.placeFrom_append (Path.segments_ne_nil folder), Trail.foldl_enter h]
  unfold Path.join
  by_cases hempty : base = ""
  · have hne : rest ≠ "" := by
      rintro rfl
      exact absurd (h "" (hrest ▸ by decide)).1 (by decide)
    rw [if_pos (.inl hempty), hempty, String.empty_append, placeOf, if_neg hne, hrest, placeFrom_names h, placeOf,
      if_pos rfl]
  by_cases hslash : base.toList.getLast? = some '/'
  · obtain ⟨front, hfront⟩ := List.getLast?_eq_some_iff.1 hslash
    have hbase : base = String.ofList front ++ "/" := String.toList_inj.1 (by simp [hfront])
    have hidle : t.placeFrom (Path.segments base) = t.placeFrom (Path.segments (String.ofList front)) := by
      have hsegments := Path.segments_append (String.ofList front) ""
      rw [String.append_empty, ← hbase] at hsegments
      rw [hsegments, t.placeFrom_append (Path.segments_ne_nil _)]
      rfl
    have hsegments := Path.segments_append (String.ofList front) rest
    rw [← hbase, hrest] at hsegments
    rw [if_pos (.inr hslash), placeOf, if_neg (by simp [hempty]), hsegments, happend, placeOf, if_neg hempty, hidle]
  · rw [if_neg (by simp [hempty, hslash]), placeOf, if_neg (by simp), Path.segments_append, hrest, happend, placeOf,
      if_neg hempty]

theorem go?_eq {place found : Trail} {segments : List String} (h : t.go? place segments = some found) :
    found = segments.foldl .enter place := by
  fun_induction go? t place segments with
  | case1 => exact (Option.some.inj h).symm
  | case2 => cases h
  | case3 place segment rest _ hidle ih =>
    rw [List.foldl_cons, Trail.enter, if_pos hidle]
    exact ih h
  | case4 place rest _ hidle ih =>
    rw [List.foldl_cons, Trail.enter, if_neg hidle, if_pos rfl]
    exact ih h
  | case5 place segment rest _ hidle hparent ih =>
    rw [List.foldl_cons, Trail.enter, if_neg hidle, if_neg hparent]
    exact ih h

theorem locate?_cases {path : String} {place : Trail} (h : t.locate? path = some place) :
    path ≠ "" ∧ ∃ start rest, t.origin path = (start, rest) ∧ t.go? start rest = some place := by
  unfold locate? at h
  split at h
  · rename_i husable
    simp only [Path.isUsable, decide_eq_true_eq] at husable
    exact ⟨husable.1, _, _, rfl, h⟩
  · cases h

theorem placeFrom_eq {path : String} {start : Trail} {rest : List String} (h : t.origin path = (start, rest)) :
    t.placeFrom (Path.segments path) = rest.foldl .enter start := by
  unfold origin at h
  split at h
  · rename_i hsegments
    cases h
    rw [hsegments]
    rfl
  · rename_i hsegments
    cases h
    unfold placeFrom
    split
    · rename_i heq
      exact absurd heq (hsegments _)
    · rfl

theorem locate?_eq {path : String} {place : Trail} (h : t.locate? path = some place) : place = t.placeOf path := by
  obtain ⟨hne, start, rest, horigin, hgo⟩ := locate?_cases h
  rw [placeOf, if_neg hne, placeFrom_eq horigin, go?_eq hgo]

theorem isFolder_iff {place : Trail} : t.isFolder place ↔ place <+: t.home ∨ (∃ folder ∈ t.folders, place <+: folder) ∨
    ∃ file ∈ t.files, place <+: file.1 ∧ place.length < file.1.length := by
  simp [isFolder, or_assoc]

theorem isFolder_above {place below : Trail} (hplace : place <+: below) (h : t.isFolder below) :
    t.isFolder place := by
  have hlength := hplace.length_le
  rw [isFolder_iff] at h ⊢
  rcases h with h | ⟨folder, hmem, h⟩ | ⟨file, hmem, h, hlt⟩
  · exact .inl (hplace.trans h)
  · exact .inr (.inl ⟨folder, hmem, hplace.trans h⟩)
  · exact .inr (.inr ⟨file, hmem, hplace.trans h, by omega⟩)

theorem go?_append (place : Trail) (segments rest : List String) :
    t.go? place (segments ++ rest) = (t.go? place segments).bind fun next => t.go? next rest := by
  induction segments generalizing place with
  | nil => rfl
  | cons segment segments ih =>
    rw [List.cons_append, go?, go?, ih, ih, ih]
    split
    · rfl
    · split
      · rfl
      · split <;> rfl

theorem name_of_go? {place found : Trail} {segment : String} (h : t.go? place [segment] = some found)
    (hfile : ¬ t.isFolder found) : Path.isIdle segment = false ∧ segment ≠ ".." := by
  simp only [go?] at h
  split at h
  · cases h
  · rename_i hfolder
    simp only [Bool.not_eq_true', Bool.not_eq_false] at hfolder
    split at h
    · cases h
      exact absurd hfolder hfile
    · rename_i hidle
      split at h
      · cases h
        exact absurd (isFolder_above (List.dropLast_prefix place) hfolder) hfile
      · rename_i hparent
        exact ⟨by simpa using hidle, hparent⟩

theorem isName_fileName {path : String} {place : Trail} (h : t.locate? path = some place)
    (hfile : ¬ t.isFolder place) : Path.IsName (Path.fileName path) := by
  obtain ⟨_, start, rest, horigin, hgo⟩ := locate?_cases h
  have hstart : t.isFolder start := by
    unfold origin at horigin
    split at horigin <;> cases horigin
    · exact isFolder_iff.2 (.inl List.nil_prefix)
    · exact isFolder_iff.2 (.inl (List.prefix_refl _))
  have hsuffix : rest <:+ Path.segments path := by
    unfold origin at horigin
    split at horigin <;> cases horigin
    · rename_i hsegments
      rw [hsegments]
      exact List.suffix_cons _ _
    · exact List.suffix_refl _
  rcases List.eq_nil_or_concat rest with rfl | ⟨front, last, rfl⟩
  · cases hgo
    exact absurd hstart hfile
  · rw [List.concat_eq_append, go?_append] at hgo
    obtain ⟨next, _, hlast⟩ := Option.bind_eq_some_iff.1 hgo
    obtain ⟨hidle, hparent⟩ := name_of_go? hlast hfile
    obtain ⟨before, hbefore⟩ := hsuffix
    have hname : Path.fileName path = last := by
      rw [Path.fileName, ← hbefore, List.concat_eq_append, ← List.append_assoc, List.getLastD_concat]
    rw [hname]
    exact ⟨hidle, hparent, Path.not_mem_of_mem_segments (by rw [← hbefore]; simp)⟩

end FileTree

end ModuleLowering.Command
