import ModuleLowering.Proofs.Command.Writes
import ModuleLowering.Proofs.Except

namespace ModuleLowering.Command

structure FileTree.Proper (t : FileTree) : Prop where
  names : ∀ file ∈ t.files, ∀ name ∈ file.1, Path.IsName name
  distinct : (t.files.map Prod.fst).Nodup

def FileTree.Fresh (t : FileTree) (path : String) : Prop := ∀ file ∈ t.files, ¬ t.placeOf path <+: file.1

namespace SourceFile

def output? (options : Options) (f : SourceFile) : Option String :=
  match f.lower options with
  | .ok (.ok output) => some output
  | _ => none

def failure? (options : Options) (f : SourceFile) : Option FileFailure :=
  match f.lower options with
  | .ok (.error failure) => some failure
  | .ok (.ok _) | .error _ => none

end SourceFile

def outputs (options : Options) (sources : List SourceFile) : List (SourceFile × String) :=
  sources.filterMap fun f => (f.output? options).map (f, ·)

def failures (options : Options) (sources : List SourceFile) : List FileFailure :=
  sources.filterMap (·.failure? options)

theorem mem_outputs {options : Options} {sources : List SourceFile} {f : SourceFile} {output : String} :
    (f, output) ∈ outputs options sources ↔ f ∈ sources ∧ f.output? options = some output := by
  simp only [outputs, List.mem_filterMap, Option.map_eq_some_iff, Prod.mk.injEq]
  constructor
  · rintro ⟨_, hf, _, houtput, rfl, rfl⟩
    exact ⟨hf, houtput⟩
  · rintro ⟨hf, houtput⟩
    exact ⟨f, hf, output, houtput, rfl, rfl⟩

def writeBelow (dir : String) (p : SourceFile × String) : Write := ⟨Path.join dir p.1.relative, p.2⟩

theorem filterMap_of_mapM {ε α β γ : Type} {f : α → Except ε β} {g : β → Option γ} {g' : α → Option γ}
    (h : ∀ x y, f x = .ok y → g y = g' x) {xs : List α} {ys : List β} (hys : xs.mapM f = .ok ys) :
    ys.filterMap g = xs.filterMap g' := by
  induction xs generalizing ys with
  | nil =>
    cases hys
    rfl
  | cons x xs ih =>
    obtain ⟨y, rest, hy, hrest, rfl⟩ := cons_of_mapM hys
    rw [List.filterMap_cons, List.filterMap_cons, h x y hy, ih hrest]

namespace Outcome

variable {task : Task} {sources : List SourceFile} {o : Outcome}

theorem filterMap_of_lower {γ : Type} (read : SourceFile → Option γ) {options : Options}
    {g : SourceFile × Except FileFailure String → Option γ} {results : List (SourceFile × Except FileFailure String)}
    (h : ∀ f r, f.lower options = .ok r → g (f, r) = read f)
    (hresults : sources.mapM (fun f => (f.lower options).map (f, ·)) = .ok results) :
    results.filterMap g = sources.filterMap read := by
  refine filterMap_of_mapM (fun f y hy => ?_) hresults
  obtain ⟨r, hr, rfl⟩ := map_eq_ok_iff.1 hy
  exact h f r hr

theorem eq_of (h : Outcome.of task sources = .ok o) :
    o.files = sources.length ∧ o.failures = Command.failures task.options sources ∧
      o.writes = (if task.check then [] else
        task.outDir.elim [] fun dir => (outputs task.options sources).map (writeBelow dir)) ∧
      o.stdout = if task.check || task.outDir.isSome then "" else
        String.join ((outputs task.options sources).map (·.2)) := by
  obtain ⟨results, hresults, h⟩ := bind_eq_ok_iff.1 h
  dsimp only at h
  rw [filterMap_of_lower (·.failure? task.options) ?_ hresults,
    filterMap_of_lower (fun f => (f.output? task.options).map (f, ·)) ?_ hresults] at h
  · cases hcheck : task.check with
    | true =>
      rw [hcheck] at h
      cases h
      exact ⟨rfl, rfl, rfl, rfl⟩
    | false =>
      cases hdir : task.outDir with
      | none =>
        rw [hcheck, hdir] at h
        cases h
        exact ⟨rfl, rfl, rfl, rfl⟩
      | some dir =>
        rw [hcheck, hdir] at h
        cases h
        exact ⟨rfl, rfl, rfl, rfl⟩
  · intro f r hr
    rw [SourceFile.output?, hr]
    cases r <;> rfl
  · intro f r hr
    rw [SourceFile.failure?, hr]
    cases r <;> rfl

theorem writes_eq {dir : String} (h : Outcome.of task sources = .ok o) (hcheck : task.check = false)
    (hdir : task.outDir = some dir) : o.writes = (outputs task.options sources).map (writeBelow dir) := by
  rw [(eq_of h).2.2.1, hcheck, hdir]
  rfl

end Outcome

theorem run_cases {t after : FileTree} {a : Arguments} {task : Task} {o : Outcome}
    (h : run t a = .ok (task, o, after)) : ∃ sources, t.collect a.inputs = .ok sources ∧
      Outcome.of task sources = .ok o ∧ o.writes.foldlM FileTree.write t = .ok after := by
  have hmap {α : Type} {x : Except Fault α} {y : α} (hx : x.mapError Failure.rejected = .ok y) : x = .ok y := by
    cases x <;> cases hx
    rfl
  obtain ⟨_, _, h⟩ := bind_eq_ok_iff.1 h
  obtain ⟨sources, hsources, h⟩ := bind_eq_ok_iff.1 h
  obtain ⟨outcome, houtcome, h⟩ := bind_eq_ok_iff.1 h
  obtain ⟨made, hmade, h⟩ := bind_eq_ok_iff.1 h
  cases h
  exact ⟨sources, hmap hsources, houtcome, hmap hmade⟩

namespace SourceFile

theorem mem_sorted {found : List (Trail × ByteArray)} {p : Trail × ByteArray}
    (h : p ∈ (found.filter fun (names, _) => Path.isSource (names.getLastD "")).mergeSort
      fun a b => !b.1.isBefore a.1) : p ∈ found ∧ p.1 ≠ [] := by
  obtain ⟨hmem, hsource⟩ := List.mem_filter.1 (List.mem_mergeSort.1 h)
  refine ⟨hmem, fun hnil => ?_⟩
  dsimp only at hsource
  rw [hnil] at hsource
  exact absurd hsource (by decide)

theorem mem_ofFolder {input : String} {found : List (Trail × ByteArray)} {f : SourceFile}
    (h : f ∈ ofFolder input found) : ∃ p ∈ found, p.1 ≠ [] ∧
      f = ⟨Path.join input (Path.ofSegments p.1), Path.ofSegments p.1, p.2⟩ := by
  obtain ⟨p, hp, rfl⟩ := List.mem_map.1 h
  exact ⟨p, (mem_sorted hp).1, (mem_sorted hp).2, rfl⟩

theorem nodup_ofFolder {found : List (Trail × ByteArray)} (hdistinct : (found.map Prod.fst).Nodup)
    (hnames : ∀ p ∈ found, ∀ name ∈ p.1, Path.IsName name) (input : String) :
    ((ofFolder input found).map (·.relative)).Nodup := by
  have hpairwise := (List.pairwise_map.1 hdistinct).sublist
    (List.filter_sublist (p := fun p => Path.isSource (p.1.getLastD "")))
  have hsorted := (List.mergeSort_perm _ fun a b => !b.1.isBefore a.1).symm.pairwise hpairwise fun h => h.symm
  rw [ofFolder, List.map_map]
  refine List.pairwise_map.2 (hsorted.imp_of_mem fun {p q} hp hq hne heq => hne ?_)
  have hsegments := congrArg Path.segments heq
  obtain ⟨hp, hpne⟩ := mem_sorted hp
  obtain ⟨hq, hqne⟩ := mem_sorted hq
  dsimp only [Function.comp_apply] at hsegments
  rwa [Path.segments_ofSegments hpne (hnames p hp), Path.segments_ofSegments hqne (hnames q hq)] at hsegments

end SourceFile

namespace FileTree

variable {t : FileTree}

theorem mem_of_file? {place : Trail} {contents : ByteArray} (h : t.file? place = some contents) :
    (place, contents) ∈ t.files := by
  obtain ⟨before, later, hfiles, _⟩ := List.lookup_eq_some_iff.1 h
  rw [hfiles]
  simp

theorem Fresh.file?_eq_none {path : String} (h : t.Fresh path) {place : Trail} (hplace : t.placeOf path <+: place) :
    t.file? place = none := by
  cases hfile : t.file? place with
  | none => rfl
  | some contents => exact absurd hplace (h _ (mem_of_file? hfile))

theorem Proper.names_of_below (ht : t.Proper) {place : Trail} {p : Trail × ByteArray} (h : p ∈ t.below place) :
    ∀ name ∈ p.1, Path.IsName name := fun name hname =>
  ht.names _ (mem_below_iff.1 h) name (List.mem_append_right place hname)

theorem Proper.nodup_below (ht : t.Proper) (place : Trail) : ((t.below place).map Prod.fst).Nodup := by
  refine List.pairwise_map.2 (List.pairwise_filterMap.2 ((List.pairwise_map.1 ht.distinct).imp ?_))
  intro file other hne p hp q hq heq
  dsimp only at hp hq
  split at hp
  · rename_i hbelow
    split at hq
    · rename_i hbelow'
      cases hp
      cases hq
      rw [List.isPrefixOf_iff_prefix] at hbelow hbelow'
      have heq : file.1.drop place.length = other.1.drop place.length := heq
      apply hne
      rw [← List.prefix_iff_eq_append.1 hbelow, ← List.prefix_iff_eq_append.1 hbelow', heq]
    · cases hq
  · cases hp

theorem relative_names (ht : t.Proper) {input : String} {found : List SourceFile} (h : t.sources input = .ok found)
    {f : SourceFile} (hf : f ∈ found) : ∀ name ∈ Path.segments f.relative, Path.IsName name := by
  unfold sources at h
  split at h
  · cases h
  · rename_i place hplace
    split at h
    · cases h
      obtain ⟨p, hp, hne, rfl⟩ := SourceFile.mem_ofFolder hf
      have hnames := ht.names_of_below hp
      rw [Path.segments_ofSegments hne hnames]
      exact hnames
    · rename_i hfile
      split at h
      · cases h
        obtain rfl := List.mem_singleton.1 hf
        have hname := isName_fileName hplace (by simpa using hfile)
        simp only [SourceFile.ofFile, Path.segments_of_not_mem hname.2.2, List.mem_singleton]
        rintro _ rfl
        exact hname
      · cases h

theorem nodup_relative (ht : t.Proper) {input : String} {found : List SourceFile} (h : t.sources input = .ok found) :
    (found.map (·.relative)).Nodup := by
  unfold sources at h
  split at h
  · cases h
  · rename_i place hplace
    split at h
    · cases h
      exact SourceFile.nodup_ofFolder (ht.nodup_below place) (fun p hp => ht.names_of_below hp) input
    · split at h
      · cases h
        simp
      · cases h

theorem sources_of_collect {input : String} {found : List SourceFile} (h : t.collect [input] = .ok found) :
    t.sources input = .ok found := by
  obtain ⟨parts, hparts, rfl⟩ := map_eq_ok_iff.1 h
  obtain ⟨part, _, hpart, hnil, rfl⟩ := cons_of_mapM hparts
  cases hnil
  simpa using hpart

theorem collect_names (ht : t.Proper) {inputs : List String} {found : List SourceFile}
    (h : t.collect inputs = .ok found) {f : SourceFile} (hf : f ∈ found) :
    ∀ name ∈ Path.segments f.relative, Path.IsName name := by
  obtain ⟨parts, hparts, rfl⟩ := map_eq_ok_iff.1 h
  obtain ⟨part, hpart, hf⟩ := List.mem_flatten.1 hf
  obtain ⟨input, _, hsources⟩ := exists_of_mem_mapM hparts hpart
  exact relative_names ht hsources hf

end FileTree

def LastAtPath (outs : List (SourceFile × String)) (p : SourceFile × String) : Prop :=
  ∃ before later, outs = before ++ p :: later ∧ ∀ q ∈ later, q.1.relative ≠ p.1.relative

section

variable {t after : FileTree} {outs : List (SourceFile × String)} {dir : String}

theorem placeOf_writeBelow {p : SourceFile × String} (hp : ∀ name ∈ Path.segments p.1.relative, Path.IsName name) :
    t.placeOf (writeBelow dir p).target = t.placeOf dir ++ Path.segments p.1.relative :=
  FileTree.placeOf_join hp rfl dir

variable (hnames : ∀ p ∈ outs, ∀ name ∈ Path.segments p.1.relative, Path.IsName name)
include hnames

theorem placeOf_eq_iff {p q : SourceFile × String} (hp : p ∈ outs) (hq : q ∈ outs) :
    t.placeOf (writeBelow dir p).target = t.placeOf (writeBelow dir q).target ↔ p.1.relative = q.1.relative := by
  rw [placeOf_writeBelow (hnames p hp), placeOf_writeBelow (hnames q hq), List.append_cancel_left_eq]
  exact ⟨Path.segments_injective, congrArg _⟩

theorem lastWrite?_of_lastAtPath {p : SourceFile × String} (hp : LastAtPath outs p) :
    t.lastWrite? (outs.map (writeBelow dir)) (t.placeOf (writeBelow dir p).target) = some (writeBelow dir p) := by
  obtain ⟨before, later, rfl, hlater⟩ := hp
  refine FileTree.lastWrite?_eq_some_iff.2 ⟨rfl, before.map (writeBelow dir), later.map (writeBelow dir), by simp, ?_⟩
  intro w hw
  obtain ⟨q, hq, rfl⟩ := List.mem_map.1 hw
  have hmem : q ∈ before ++ p :: later := List.mem_append_right before (List.mem_cons_of_mem p hq)
  exact fun heq => hlater q hq ((placeOf_eq_iff hnames hmem (by simp)).1 heq)

omit hnames in
theorem lastAtPath_of_lastWrite? {place : Trail} {w : Write}
    (h : t.lastWrite? (outs.map (writeBelow dir)) place = some w) :
    ∃ p, LastAtPath outs p ∧ writeBelow dir p = w := by
  obtain ⟨hplace, before, later, hsplit, hlater⟩ := FileTree.lastWrite?_eq_some_iff.1 h
  obtain ⟨front, rest, rfl, _, hrest⟩ := List.map_eq_append_iff.1 hsplit
  obtain ⟨p, back, rfl, rfl, rfl⟩ := List.map_eq_cons_iff.1 hrest
  refine ⟨p, ⟨front, back, rfl, fun q hq heq => hlater _ (List.mem_map_of_mem hq) ?_⟩, rfl⟩
  rw [← hplace, writeBelow, heq]
  rfl

theorem read?_of_lastAtPath (hwrites : (outs.map (writeBelow dir)).foldlM FileTree.write t = .ok after)
    {p : SourceFile × String} (hp : LastAtPath outs p) :
    after.file? (t.placeOf (writeBelow dir p).target) = some p.2.toUTF8 ∧
      after.read? (writeBelow dir p).target = some p.2.toUTF8 := by
  obtain ⟨_, hlocate, hfile⟩ := FileTree.wrote_of_writes hwrites
  have hcontents := hfile (t.placeOf (writeBelow dir p).target)
  rw [lastWrite?_of_lastAtPath hnames hp, Option.map_some, Option.some_or] at hcontents
  obtain ⟨before, later, rfl, _⟩ := hp
  exact ⟨hcontents, by rw [FileTree.read?, hlocate _ (List.mem_map_of_mem (by simp)), Option.bind_some, hcontents]; rfl⟩

end

theorem lastAtPath_of_nodup {outs : List (SourceFile × String)} (h : (outs.map (·.1.relative)).Nodup)
    {p : SourceFile × String} (hp : p ∈ outs) : LastAtPath outs p := by
  obtain ⟨before, later, rfl⟩ := List.append_of_mem hp
  have hpairwise := (List.pairwise_append.1 (List.pairwise_map.1 h)).2.1
  exact ⟨before, later, rfl, fun q hq heq => (List.pairwise_cons.1 hpairwise).1 q hq heq.symm⟩

theorem nodup_outputs {sources : List SourceFile} (h : (sources.map (·.relative)).Nodup) (options : Options) :
    ((outputs options sources).map (·.1.relative)).Nodup := by
  refine List.pairwise_map.2 (List.pairwise_filterMap.2 ((List.pairwise_map.1 h).imp ?_))
  intro f g hne p hp q hq
  obtain ⟨_, _, rfl⟩ := Option.map_eq_some_iff.1 hp
  obtain ⟨_, _, rfl⟩ := Option.map_eq_some_iff.1 hq
  exact hne

/-- After a run that writes below a folder without files, every output is in a file below it exactly if each is
that of a file which is the last at its relative path. So no output is lost if no two files are written to one
target, and for a single input none are. -/
theorem outputs_kept_iff {t after : FileTree} {a : Arguments} {task : Task} {o : Outcome} {dir : String}
    (ht : t.Proper) (hfresh : t.Fresh dir) (hrun : run t a = .ok (task, o, after)) (hcheck : task.check = false)
    (hdir : task.outDir = some dir) :
    ∃ sources, t.collect a.inputs = .ok sources ∧
      let outs := outputs task.options sources
      ((∀ p ∈ outs, ∃ place, t.placeOf dir <+: place ∧ after.file? place = some p.2.toUTF8) ↔
        ∀ p ∈ outs, ∃ q, LastAtPath outs q ∧ q.2 = p.2) ∧
      ((o.writes.map (·.target)).Nodup →
        ∀ p ∈ outs, after.read? (Path.join dir p.1.relative) = some p.2.toUTF8) ∧
      ∀ input, a.inputs = [input] → (o.writes.map (·.target)).Nodup := by
  obtain ⟨sources, hsources, houtcome, hwrites⟩ := run_cases hrun
  rw [Outcome.writes_eq houtcome hcheck hdir] at hwrites ⊢
  have hnames : ∀ p ∈ outputs task.options sources, ∀ name ∈ Path.segments p.1.relative, Path.IsName name :=
    fun p hp => FileTree.collect_names ht hsources (mem_outputs.1 hp).1
  refine ⟨sources, hsources, ⟨fun hkept p hp => ?_, fun hlast p hp => ?_⟩, fun hnodup p hp => ?_, ?_⟩
  · obtain ⟨place, hplace, hfile⟩ := hkept p hp
    obtain ⟨_, _, hfiles⟩ := FileTree.wrote_of_writes hwrites
    rw [hfiles, hfresh.file?_eq_none hplace, Option.or_none] at hfile
    obtain ⟨w, hw, htext⟩ := Option.map_eq_some_iff.1 hfile
    obtain ⟨q, hq, rfl⟩ := lastAtPath_of_lastWrite? hw
    exact ⟨q, hq, String.toByteArray_inj.1 htext⟩
  · obtain ⟨q, hq, htext⟩ := hlast p hp
    refine ⟨_, ?_, htext ▸ (read?_of_lastAtPath hnames hwrites hq).1⟩
    obtain ⟨before, later, hsplit, _⟩ := hq
    rw [placeOf_writeBelow (hnames q (by rw [hsplit]; simp))]
    exact List.prefix_append _ _
  · rw [List.map_map] at hnodup
    have hrelative : ((outputs task.options sources).map (·.1.relative)).Nodup :=
      List.pairwise_map.2 ((List.pairwise_map.1 hnodup).imp fun hne heq => hne (congrArg (Path.join dir) heq))
    exact (read?_of_lastAtPath hnames hwrites (lastAtPath_of_nodup hrelative hp)).2
  · intro input hinput
    rw [hinput] at hsources
    have hnodup := nodup_outputs (FileTree.nodup_relative ht (FileTree.sources_of_collect hsources)) task.options
    rw [List.map_map]
    exact List.pairwise_map.2 ((List.pairwise_map.1 hnodup).imp fun hne heq => hne (Path.join_injective heq))

theorem outputs_kept_apart :
    let t : FileTree := ⟨["w"], [(["w", "b.js"], "foo(1);\n".toUTF8), (["w", "lib", "c.js"], "foo(2);\n".toUTF8)], []⟩
    let a : Arguments := ⟨["b.js", "lib/c.js"], none, none, some "out", false⟩
    ∃ task o after sources, run t a = .ok (task, o, after) ∧ t.collect a.inputs = .ok sources ∧
      (outputs task.options sources).length = 2 ∧
      ∀ p ∈ outputs task.options sources, after.read? (Path.join "out" p.1.relative) = some p.2.toUTF8 := by
  intro t a
  have h : (match run t a, t.collect a.inputs with
      | .ok (task, o, _), .ok sources => decide (task.check = false) && decide (task.outDir = some "out") &&
        decide (o.writes.map (·.target)).Nodup && decide ((outputs task.options sources).length = 2)
      | _, _ => false) = true := by decide +kernel
  split at h
  · rename_i task o after sources hrun hsources
    simp only [Bool.and_eq_true, decide_eq_true_eq] at h
    obtain ⟨⟨⟨hcheck, hdir⟩, hnodup⟩, hlength⟩ := h
    obtain ⟨found, hfound, _, hkept, _⟩ := outputs_kept_iff (t := t) (a := a)
      ⟨by decide +kernel, by decide +kernel⟩ (by unfold FileTree.Fresh; decide +kernel) hrun hcheck hdir
    rw [hsources] at hfound
    cases hfound
    exact ⟨task, o, after, sources, hrun, hsources, hlength, hkept hnodup⟩
  · cases h

/-- Of two files with one name that are given directly, only the second is left. -/
theorem outputs_lost :
    let t : FileTree :=
      ⟨["w"], [(["w", "a", "x.js"], "foo(1);\n".toUTF8), (["w", "b", "x.js"], "foo(2);\n".toUTF8)], []⟩
    let a : Arguments := ⟨["a/x.js", "b/x.js"], none, none, some "out", false⟩
    t.Proper ∧ t.Fresh "out" ∧ ∃ task o after sources, run t a = .ok (task, o, after) ∧ task.check = false ∧
      task.outDir = some "out" ∧ t.collect a.inputs = .ok sources ∧ sources.map (·.path) = ["a/x.js", "b/x.js"] ∧
      o.writes.map (·.target) = ["out/x.js", "out/x.js"] ∧
      ∃ p ∈ outputs task.options sources, ∀ place, t.placeOf "out" <+: place →
        after.file? place ≠ some p.2.toUTF8 := by
  intro t a
  have h : (match run t a, t.collect a.inputs with
      | .ok (task, o, after), .ok sources => decide (task.check = false) && decide (task.outDir = some "out") &&
        decide (sources.map (·.path) = ["a/x.js", "b/x.js"]) &&
        decide (o.writes.map (·.target) = ["out/x.js", "out/x.js"]) &&
        (outputs task.options sources).any fun p =>
          decide (∀ file ∈ after.files, t.placeOf "out" <+: file.1 → file.2 ≠ p.2.toUTF8)
      | _, _ => false) = true := by decide +kernel
  refine ⟨⟨by decide +kernel, by decide +kernel⟩, by unfold FileTree.Fresh; decide +kernel, ?_⟩
  split at h
  · rename_i task o after sources hrun hsources
    simp only [Bool.and_eq_true, decide_eq_true_eq, List.any_eq_true] at h
    obtain ⟨⟨⟨⟨hcheck, hdir⟩, hpaths⟩, htargets⟩, p, hp, hlost⟩ := h
    exact ⟨task, o, after, sources, hrun, hcheck, hdir, hsources, hpaths, htargets, p, hp,
      fun place hplace hfile => hlost _ (FileTree.mem_of_file? hfile) hplace rfl⟩
  · cases h

end ModuleLowering.Command
