import ModuleLowering.Proofs.Lowering.StatementEdits
import ModuleLowering.Proofs.Role.Nesting
import ModuleLowering.Proofs.Statement.Refusals

namespace ModuleLowering

open Text

def Diagnostic.BodyEnds (d : Diagnostic) : Prop :=
  d.problem ≠ .malformedExport .unclosedFunctionBody ∧ d.problem ≠ .malformedExport .unclosedClassBody

open Diagnostic

namespace Stream

def BracesClosed (s : Stream) : Prop := ∀ i, s.isAt i .openBrace → ∃ j, s.closer? i = some j

theorem Balanced.bracesClosed {s : Stream} (h : s.Balanced) : s.BracesClosed := by
  intro i hi
  obtain ⟨a, ha, hk⟩ := Option.map_eq_some_iff.1 (of_decide_eq_true hi)
  obtain ⟨j, _, hlt, _, _, hpair, _⟩ := h.opener i a ha (by rw [hk]; rfl)
  exact ⟨j, by simp [closer?, ha, Token.closer?, hpair, hlt]⟩

variable {s : Stream}

theorem BracesClosed.refusals (h : s.BracesClosed) : s.Refusals BodyEnds where
  imports _ _ := ⟨nofun, nofun⟩
  exports fault i hfault := by
    refine ⟨?_, ?_⟩ <;>
      · rintro ⟨⟩
        cases hfault
  unclosed _ i hi hnone := by
    obtain ⟨j, hj⟩ := h i hi
    rw [hnone] at hj
    cases hj
  unsupported _ _ := ⟨nofun, nofun⟩

theorem bodyEnds_functionDeclaration (i : Nat) (h : s.BracesClosed) : FailsOnly BodyEnds (s.functionDeclaration i) :=
  h.refusals.functionDeclaration i

theorem bodyEnds_classDeclaration (i : Nat) (h : s.BracesClosed) : FailsOnly BodyEnds (s.classDeclaration i) :=
  h.refusals.classDeclaration i

theorem bodyEnds_moduleFrom (i : Nat) (h : s.BracesClosed) (m : SourceModule) :
    FailsOnly BodyEnds (s.moduleFrom i m) := h.refusals.moduleFrom i m

end Stream

theorem Progress.failsOnly_collect {α : Type} {P : Diagnostic → Prop} {xs : List (Except Diagnostic (List α))}
    (h : ∀ x ∈ xs, FailsOnly P x) : FailsOnly P (collect xs).toExcept := by
  induction xs with
  | nil => exact .ok _
  | cons x xs ih =>
    rw [collect_cons]
    exact (h x List.mem_cons_self).bind fun _ => .map (ih fun y hy => h y (List.mem_cons_of_mem x hy))

namespace Context

variable (x : Context)

theorem bodyEnds_exportChanges (st : ExportStatement) : FailsOnly BodyEnds (x.exportChanges st) := by
  cases st with
  | namesFrom span specifiers specifier =>
    refine .bind (.mapM fun e => ?_) fun _ => .ok _
    unfold getterLine
    split
    · exact .ok _
    · exact .error ⟨nofun, nofun⟩
  | _ => exact .ok _

theorem bodyEnds_itemChanges (item : ModuleItem) : FailsOnly BodyEnds (x.itemChanges item) := by
  cases item with
  | imports st => exact .ok _
  | exports st => exact x.bodyEnds_exportChanges st

theorem bodyEnds_referenceEdits (i : Nat) (t : Token) : FailsOnly BodyEnds (x.referenceEdits i t) := by
  unfold referenceEdits
  split
  · exact .ok _
  · split
    · exact .ok _
    · exact .ite (.error ⟨nofun, nofun⟩) (.ok _)

theorem bodyEnds_edits (m : SourceModule) : FailsOnly BodyEnds (x.edits m) := by
  unfold edits
  refine .bind (Progress.failsOnly_collect ?_) fun _ => .bind (Progress.failsOnly_collect ?_) fun _ => .ok _
  · simp only [List.forall_mem_map]
    exact fun item _ => .map (x.bodyEnds_itemChanges item)
  · simp only [List.forall_mem_map]
    exact fun (t, i) _ => x.bodyEnds_referenceEdits i t

end Context

theorem bodyEnds_lowerStream {s : Stream} (h : s.BracesClosed) (source : List Char) (options : Options) :
    FailsOnly BodyEnds (lowerStream source options s) := by
  unfold lowerStream
  refine .bind (Stream.bodyEnds_moduleFrom 0 h .empty) fun m => ?_
  refine .ite (.ok _) (.bind (Context.bodyEnds_edits _ m) fun _ => .ok _)

/-- The brackets of a source that is scanned are balanced, and so no body of a function or class is without
its end. -/
theorem scan_balanced {source : List Char} {s : Stream} (h : scan source = .ok s) :
    s.Balanced ∧ (∀ i, FailsOnly BodyEnds (s.functionDeclaration i)) ∧
    (∀ i, FailsOnly BodyEnds (s.classDeclaration i)) ∧ FailsOnly BodyEnds s.toModule ∧
    ∀ options d, lower source options = .error (.rejected d) → d.BodyEnds := by
  have hbalanced := Stream.balanced_of_scan h
  have hclosed := hbalanced.bracesClosed
  refine ⟨hbalanced, fun i => Stream.bodyEnds_functionDeclaration i hclosed,
    fun i => Stream.bodyEnds_classDeclaration i hclosed, Stream.bodyEnds_moduleFrom 0 hclosed .empty, ?_⟩
  intro options d hd
  unfold lower at hd
  rw [h] at hd
  split at hd
  · cases hd
  · cases hstream : lowerStream source options s with
    | ok out => simp [hstream, Except.mapError] at hd
    | error e =>
      simp only [hstream, Except.mapError, Except.error.injEq, Failure.rejected.injEq] at hd
      rw [← hd]
      exact bodyEnds_lowerStream hclosed source options e hstream

theorem scan_balanced_template : ∃ s, scan "f(`a$\x7b[b]\x7dc`);".toList = .ok s ∧ s.isAt 2 .templateHead ∧
    (∃! j, Template (levels s.tokens) 2 j) ∧
    3 = {i | s.Surrounds i 4}.ncard + {c | s.Interpolates c 4}.ncard := by
  obtain ⟨s, hs, htest⟩ := exists_ok_of_test (x := scan "f(`a$\x7b[b]\x7dc`);".toList)
    (fun s => s.isAt 2 .templateHead && s.tokens[4]?.any (·.depth = 3)) (by decide +kernel)
  obtain ⟨hhead, hdepth⟩ := Bool.and_eq_true_iff.1 htest
  obtain ⟨t, ht, hdepth⟩ := (Option.any_eq_true _ _).1 hdepth
  obtain ⟨hbalanced, _⟩ := scan_balanced hs
  refine ⟨s, hs, hhead, hbalanced.templates 2 hhead, ?_⟩
  rw [← hbalanced.depth 4 t ht]
  exact (of_decide_eq_true hdepth).symm

end ModuleLowering
