import ModuleLowering.Proofs.Command.Outputs

namespace ModuleLowering.Command

namespace SourceFile

def Splits (options : Options) (f : SourceFile) : Prop :=
  ∃ text offset, String.fromUTF8? f.contents = some text ∧
    ModuleLowering.lower text.toList options = .error (.splitCharacter offset)

theorem lower_ok_iff {options : Options} {f : SourceFile} :
    (∃ result, f.lower options = .ok result) ↔ ¬ f.Splits options := by
  unfold lower Splits
  cases htext : String.fromUTF8? f.contents with
  | none => simp
  | some text =>
    cases hlower : ModuleLowering.lower text.toList options with
    | ok output => simp [hlower]
    | error failure => cases failure <;> simp [hlower]

theorem splitCharacter_of_lower {options : Options} {f : SourceFile} {failure : Failure Fault}
    (h : f.lower options = .error failure) : ∃ offset, failure = .splitCharacter offset := by
  unfold lower at h
  split at h
  · cases h
  · split at h
    · cases h
    · cases h
    · cases h
      exact ⟨_, rfl⟩

end SourceFile

theorem length_failures_add_outputs {options : Options} {sources : List SourceFile}
    (h : ∀ f ∈ sources, ∃ result, f.lower options = .ok result) :
    (failures options sources).length + (outputs options sources).length = sources.length := by
  induction sources with
  | nil => rfl
  | cons f sources ih =>
    obtain ⟨⟨result, hresult⟩, hrest⟩ := List.forall_mem_cons.1 h
    have ih := ih hrest
    simp only [failures, outputs] at ih ⊢
    cases result with
    | error failure =>
      have hfailure : f.failure? options = some failure := by rw [SourceFile.failure?, hresult]
      have houtput : f.output? options = none := by rw [SourceFile.output?, hresult]
      simp only [List.filterMap_cons, hfailure, houtput, Option.map_none, List.length_cons]
      omega
    | ok output =>
      have hfailure : f.failure? options = none := by rw [SourceFile.failure?, hresult]
      have houtput : f.output? options = some output := by rw [SourceFile.output?, hresult]
      simp only [List.filterMap_cons, hfailure, houtput, Option.map_some, List.length_cons]
      omega

namespace FileTree

variable {t : FileTree}

theorem Proper.file?_of_mem (ht : t.Proper) {place : Trail} {contents : ByteArray} (h : (place, contents) ∈ t.files) :
    t.file? place = some contents := by
  obtain ⟨before, later, hfiles⟩ := List.append_of_mem h
  have hdistinct := ht.distinct
  rw [hfiles, List.map_append, List.map_cons, List.nodup_append] at hdistinct
  refine List.lookup_eq_some_iff.2 ⟨before, later, hfiles, fun file hfile => ?_⟩
  simpa using (hdistinct.2.2 file.1 (List.mem_map_of_mem hfile) place List.mem_cons_self).symm

theorem Proper.file?_of_sources (ht : t.Proper) {input : String} {found : List SourceFile}
    (h : t.sources input = .ok found) {f : SourceFile} (hf : f ∈ found) :
    t.file? (t.placeOf f.path) = some f.contents := by
  unfold sources at h
  split at h
  · cases h
  · rename_i place hplace
    obtain rfl := locate?_eq hplace
    split at h
    · cases h
      obtain ⟨⟨names, contents⟩, hp, hne, rfl⟩ := SourceFile.mem_ofFolder hf
      have hnames := ht.names_of_below hp
      dsimp only
      rw [placeOf_join hnames (Path.segments_ofSegments hne hnames)]
      exact ht.file?_of_mem (mem_below_iff.1 hp)
    · split at h
      · rename_i contents hfile
        cases h
        obtain rfl := List.mem_singleton.1 hf
        exact hfile
      · cases h

theorem Proper.file?_of_collect (ht : t.Proper) {inputs : List String} {found : List SourceFile}
    (h : t.collect inputs = .ok found) {f : SourceFile} (hf : f ∈ found) :
    t.file? (t.placeOf f.path) = some f.contents := by
  obtain ⟨parts, hparts, rfl⟩ := map_eq_ok_iff.1 h
  obtain ⟨part, hpart, hf⟩ := List.mem_flatten.1 hf
  obtain ⟨input, _, hsources⟩ := exists_of_mem_mapM hparts hpart
  exact ht.file?_of_sources hsources hf

end FileTree

/-- What becomes of the file at a path. Nothing but its contents in the tree and the options decide it. -/
inductive Lowered (t : FileTree) (options : Options) (path : String) : Except FileFailure String → Prop
  | undecodable {contents : ByteArray} (hfile : t.file? (t.placeOf path) = some contents)
      (htext : String.fromUTF8? contents = none) : Lowered t options path (.error ⟨path, .undecodable⟩)
  | rejected {contents : ByteArray} {text : String} {d : LocatedDiagnostic}
      (hfile : t.file? (t.placeOf path) = some contents) (htext : String.fromUTF8? contents = some text)
      (hlower : lower text.toList options = .error (.rejected d)) : Lowered t options path (.error ⟨path, .rejected d⟩)
  | output {contents : ByteArray} {text output : String} (hfile : t.file? (t.placeOf path) = some contents)
      (htext : String.fromUTF8? contents = some text) (hlower : lower text.toList options = .ok output) :
      Lowered t options path (.ok output)

theorem lowered_iff {t : FileTree} {options : Options} {f : SourceFile} {r : Except FileFailure String}
    (hfile : t.file? (t.placeOf f.path) = some f.contents) :
    Lowered t options f.path r ↔ f.lower options = .ok r := by
  constructor
  · intro h
    cases h with
    | undecodable hcontents htext =>
      cases hfile.symm.trans hcontents
      rw [SourceFile.lower, htext]
    | rejected hcontents htext hlower =>
      cases hfile.symm.trans hcontents
      simp only [SourceFile.lower, htext, hlower]
    | output hcontents htext hlower =>
      cases hfile.symm.trans hcontents
      simp only [SourceFile.lower, htext, hlower]
  · intro h
    unfold SourceFile.lower at h
    split at h
    · rename_i htext
      cases h
      exact .undecodable hfile htext
    · rename_i text htext
      split at h
      · rename_i output hlower
        cases h
        exact .output hfile htext hlower
      · rename_i d hlower
        cases h
        exact .rejected hfile htext hlower
      · cases h

namespace Outcome

variable {task : Task} {sources : List SourceFile} {o : Outcome}

theorem exists_of (h : ∀ f ∈ sources, ¬ f.Splits task.options) : ∃ o, Outcome.of task sources = .ok o := by
  have hlower : ∀ f ∈ sources, ∃ y, (f.lower task.options).map (f, ·) = .ok y ∧ True := by
    intro f hf
    obtain ⟨r, hr⟩ := SourceFile.lower_ok_iff.2 (h f hf)
    exact ⟨(f, r), by rw [hr]; rfl, trivial⟩
  obtain ⟨results, hresults, _⟩ := exists_mapM_eq_ok hlower
  unfold Outcome.of
  rw [hresults]
  dsimp only [bind, Except.bind]
  split
  · exact ⟨_, rfl⟩
  · split <;> exact ⟨_, rfl⟩

theorem lower_of (h : Outcome.of task sources = .ok o) {f : SourceFile} (hf : f ∈ sources) :
    ∃ r, f.lower task.options = .ok r := by
  obtain ⟨results, hresults, _⟩ := bind_eq_ok_iff.1 h
  obtain ⟨_, _, hmap⟩ := ok_of_mapM hresults hf
  obtain ⟨r, hr, _⟩ := map_eq_ok_iff.1 hmap
  exact ⟨r, hr⟩

theorem failsOnly_of :
    FailsOnly (fun failure => ∃ offset, failure = .splitCharacter offset) (Outcome.of task sources) := by
  refine (FailsOnly.mapM fun f => FailsOnly.map fun failure hfailure => ?_).bind fun results => ?_
  · exact SourceFile.splitCharacter_of_lower hfailure
  · refine .ite (.ok _) ?_
    split <;> exact .ok _

theorem exists_splitCharacter (h : ∃ f ∈ sources, f.Splits task.options) :
    ∃ offset, Outcome.of task sources = .error (.splitCharacter offset) := by
  cases ho : Outcome.of task sources with
  | ok o =>
    obtain ⟨f, hf, hsplits⟩ := h
    exact absurd hsplits (SourceFile.lower_ok_iff.1 (lower_of ho hf))
  | error failure =>
    obtain ⟨offset, rfl⟩ := failsOnly_of failure ho
    exact ⟨offset, rfl⟩

end Outcome

/-- What a run with this task says and leaves, told from the files of its inputs and the tree before it. -/
structure Accounts (t : FileTree) (task : Task) (sources : List SourceFile) (o : Outcome) (after : FileTree) :
    Prop where
  lowered : ∀ f ∈ sources, ∃ r, f.lower task.options = .ok r ∧ Lowered t task.options f.path r
  isolated : ∀ f ∈ sources, ∀ (u : FileTree) r, u.file? (u.placeOf f.path) = t.file? (t.placeOf f.path) →
    (Lowered u task.options f.path r ↔ f.lower task.options = .ok r)
  failures : o.failures = failures task.options sources
  files : o.files = sources.length ∧ o.files = o.failures.length + (outputs task.options sources).length
  printed : task.check = false → task.outDir = none →
    o.stdout = String.join ((outputs task.options sources).map (·.2))
  silent : task.check = true ∨ task.outDir.isSome → o.stdout = ""
  written : ∀ dir, task.check = false → task.outDir = some dir →
    o.writes = (outputs task.options sources).map (writeBelow dir)
  unwritten : task.check = true ∨ task.outDir = none → o.writes = [] ∧ after = t
  contents : ∀ place, after.file? place = ((t.lastWrite? o.writes place).map (·.text.toUTF8)).or (t.file? place)

section

variable {t after : FileTree} {a : Arguments} {task : Task} {sources : List SourceFile} {o : Outcome}

theorem accounts_of_run (ht : t.Proper) (hsources : t.collect a.inputs = .ok sources)
    (h : run t a = .ok (task, o, after)) : Accounts t task sources o after := by
  obtain ⟨found, hfound, houtcome, hwrites⟩ := run_cases h
  obtain rfl := Except.ok.inj (hsources.symm.trans hfound)
  have hlower (f : SourceFile) (hf : f ∈ sources) := Outcome.lower_of houtcome hf
  have hfile (f : SourceFile) (hf : f ∈ sources) := ht.file?_of_collect hsources hf
  obtain ⟨hfiles, hfailures, hwritten, hstdout⟩ := Outcome.eq_of houtcome
  refine ⟨fun f hf => ?_, fun f hf u r hsame => lowered_iff (hsame.trans (hfile f hf)), hfailures, ⟨hfiles, ?_⟩,
    fun hcheck hdir => ?_, fun hquiet => ?_, fun dir hcheck hdir => ?_, fun hquiet => ?_,
    (FileTree.wrote_of_writes hwrites).2.2⟩
  · obtain ⟨r, hr⟩ := hlower f hf
    exact ⟨r, hr, (lowered_iff (hfile f hf)).2 hr⟩
  · rw [hfiles, hfailures, length_failures_add_outputs hlower]
  · rw [hstdout, hcheck, hdir]
    rfl
  · rw [hstdout, if_pos (by simpa using hquiet)]
  · exact Outcome.writes_eq houtcome hcheck hdir
  · have hnil : o.writes = [] := by
      rw [hwritten]
      rcases hquiet with hcheck | hdir
      · rw [if_pos hcheck]
      · rw [hdir, Option.elim_none, ite_self]
    rw [hnil] at hwrites
    cases hwrites
    exact ⟨hnil, rfl⟩

theorem run_eq (htask : t.task a = .ok task) (hsources : t.collect a.inputs = .ok sources) :
    run t a = Outcome.of task sources >>= fun o =>
      (o.writes.foldlM FileTree.write t).mapError .rejected >>= fun after => .ok (task, o, after) := by
  unfold run
  rw [htask, hsources]
  rfl

theorem exists_run (htask : t.task a = .ok task) (hsources : t.collect a.inputs = .ok sources)
    (hsplits : ∀ f ∈ sources, ¬ f.Splits task.options) (hfault : ∀ fault, run t a ≠ .error (.rejected fault)) :
    ∃ o after, run t a = .ok (task, o, after) := by
  obtain ⟨o, ho⟩ := Outcome.exists_of hsplits
  have hrun := run_eq htask hsources
  rw [ho] at hrun
  change run t a = ((o.writes.foldlM FileTree.write t).mapError .rejected >>= fun after => .ok (task, o, after)) at hrun
  cases hwrites : o.writes.foldlM FileTree.write t with
  | error fault =>
    rw [hwrites] at hrun
    exact absurd hrun (hfault fault)
  | ok after =>
    rw [hwrites] at hrun
    exact ⟨o, after, hrun⟩

theorem run_splits (htask : t.task a = .ok task) (hsources : t.collect a.inputs = .ok sources)
    (h : ∃ f ∈ sources, f.Splits task.options) : ∃ offset, run t a = .error (.splitCharacter offset) := by
  obtain ⟨offset, ho⟩ := Outcome.exists_splitCharacter h
  exact ⟨offset, by rw [run_eq htask hsources, ho]; rfl⟩

/-- If the inputs are found and nothing fails to be written, then a run gives its account exactly if lowering splits
no character of a file, and otherwise breaks off. -/
theorem run_accounted_iff (ht : t.Proper) (htask : t.task a = .ok task) (hsources : t.collect a.inputs = .ok sources)
    (hfault : ∀ fault, run t a ≠ .error (.rejected fault)) :
    ((∃ o after, run t a = .ok (task, o, after) ∧ Accounts t task sources o after) ↔
      ∀ f ∈ sources, ¬ f.Splits task.options) ∧
    ((∃ offset, run t a = .error (.splitCharacter offset)) ↔ ∃ f ∈ sources, f.Splits task.options) := by
  refine ⟨⟨?_, fun hsplits => ?_⟩, ⟨?_, run_splits htask hsources⟩⟩
  · rintro ⟨o, after, _, haccounts⟩ f hf
    obtain ⟨r, hr, _⟩ := haccounts.lowered f hf
    exact SourceFile.lower_ok_iff.1 ⟨r, hr⟩
  · obtain ⟨o, after, hrun⟩ := exists_run htask hsources hsplits hfault
    exact ⟨o, after, hrun, accounts_of_run ht hsources hrun⟩
  · rintro ⟨offset, hrun⟩
    refine Classical.byContradiction fun hnone => ?_
    obtain ⟨o, after, hok⟩ := exists_run htask hsources (fun f hf hsplits => hnone ⟨f, hf, hsplits⟩) hfault
    cases hrun.symm.trans hok

end

theorem run_accounted_overlapping :
    let t : FileTree := ⟨["w"], [(["w", "src", "a.js"], "foo(1);\n".toUTF8),
      (["w", "lib", "a.js"], "export * from 'm';\n".toUTF8)], []⟩
    let a : Arguments := ⟨["src/a.js", "lib"], none, none, some "lib", false⟩
    ∃ task sources o after, run t a = .ok (task, o, after) ∧ Accounts t task sources o after ∧
      o.writes.map (·.target) = ["lib/a.js"] ∧ o.failures.map (·.path) = ["lib/a.js"] := by
  intro t a
  obtain ⟨task, htask, h⟩ := exists_ok_of_test (x := t.task a) (fun task : Task =>
    (t.collect a.inputs).toOption.any fun sources : List SourceFile =>
      (sources.all fun f : SourceFile => (f.lower task.options).toOption.isSome) &&
      (run t a).toOption.any fun result : Task × Outcome × FileTree =>
        decide (result.2.1.writes.map (·.target) = ["lib/a.js"] ∧
          result.2.1.failures.map (·.path) = ["lib/a.js"])) (by decide +kernel)
  obtain ⟨sources, hsources, h⟩ := exists_ok_of_test _ h
  rw [Bool.and_eq_true, List.all_eq_true] at h
  obtain ⟨⟨_, o, after⟩, hrun, htest⟩ := exists_ok_of_test _ h.2
  have hsplits (f : SourceFile) (hf : f ∈ sources) : ¬ f.Splits task.options := by
    obtain ⟨r, hr, _⟩ := exists_ok_of_test (fun _ => true) (by simpa using h.1 f hf)
    exact SourceFile.lower_ok_iff.1 ⟨r, hr⟩
  have haccounted := (run_accounted_iff (t := t) (a := a) ⟨by decide +kernel, by decide +kernel⟩ htask hsources
    (by rw [hrun]; nofun)).1
  obtain ⟨o', after', hrun', haccounts⟩ := haccounted.2 hsplits
  cases hrun.symm.trans hrun'
  exact ⟨task, sources, o, after, hrun, haccounts, of_decide_eq_true htest⟩

/-- A file on which lowering splits a character keeps the run from any account of the other one. -/
theorem run_unaccounted :
    let t : FileTree := ⟨["w"], [(["w", "a.js"], "x\\u000é".toUTF8), (["w", "b.js"], "foo(1);\n".toUTF8)], []⟩
    let a : Arguments := ⟨["a.js", "b.js"], none, none, none, false⟩
    t.Proper ∧ ∃ task sources offset, t.task a = .ok task ∧ t.collect a.inputs = .ok sources ∧
      sources.map (·.path) = ["a.js", "b.js"] ∧ (outputs task.options sources).map (·.2) = ["foo(1);\n"] ∧
      run t a = .error (.splitCharacter offset) := by
  intro t a
  refine ⟨⟨by decide +kernel, by decide +kernel⟩, ?_⟩
  obtain ⟨task, htask, h⟩ := exists_ok_of_test (x := t.task a) (fun task : Task =>
    (t.collect a.inputs).toOption.any fun sources : List SourceFile =>
      decide (sources.map (·.path) = ["a.js", "b.js"] ∧ (outputs task.options sources).map (·.2) = ["foo(1);\n"]) &&
      sources.any fun f : SourceFile => (f.lower task.options).toOption.isNone) (by decide +kernel)
  obtain ⟨sources, hsources, h⟩ := exists_ok_of_test _ h
  rw [Bool.and_eq_true, decide_eq_true_eq, List.any_eq_true] at h
  obtain ⟨⟨hpaths, houtputs⟩, f, hf, hnone⟩ := h
  have hsplits : f.Splits task.options := by
    refine Classical.byContradiction fun hno => ?_
    obtain ⟨r, hr⟩ := SourceFile.lower_ok_iff.2 hno
    rw [hr] at hnone
    cases hnone
  obtain ⟨offset, hrun⟩ := run_splits htask hsources ⟨f, hf, hsplits⟩
  exact ⟨task, sources, offset, htask, hsources, hpaths, houtputs, hrun⟩

end ModuleLowering.Command
