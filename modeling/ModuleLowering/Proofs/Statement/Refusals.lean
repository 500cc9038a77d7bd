import ModuleLowering.Proofs.Except
import ModuleLowering.Proofs.Statement.ExportForm
import ModuleLowering.SourceModule.Basic

namespace ModuleLowering

def ExportFault.isUnclosed : ExportFault → Bool
  | .unclosedFunctionBody | .unclosedClassBody => true
  | _ => false

structure Stream.Refusals (s : Stream) (P : Diagnostic → Prop) : Prop where
  imports : ∀ fault i, P ⟨.malformedImport fault, s.offsetAt i⟩
  exports : ∀ fault i, fault.isUnclosed = false → P ⟨.malformedExport fault, s.offsetAt i⟩
  unclosed : ∀ fault i, s.isAt i .openBrace → s.closer? i = none → P ⟨.malformedExport fault, s.offsetAt i⟩
  unsupported : ∀ what i, P ⟨.unsupported what, s.offsetAt i⟩

theorem Stream.start_of_importStatement {s : Stream} {i j : Nat} {st : ImportStatement}
    (h : s.importStatement i = .ok (st, j)) : st.span.start = s.offsetAt i := by
  unfold importStatement at h
  split at h
  · cases h
  · split at h
    · cases h
    · cases h
      rfl

namespace Stream.Refusals

variable {s : Stream} {P : Diagnostic → Prop} (h : s.Refusals P) (i : Nat)
include h

theorem refuseImport {α : Type} {fault : ImportFault} :
    FailsOnly P (ModuleLowering.refuseImport fault (s.offsetAt i) : Except _ α) := .error (h.imports fault i)

theorem refuseExport {α : Type} {fault : ExportFault} (hfault : fault.isUnclosed = false) :
    FailsOnly P (ModuleLowering.refuseExport fault (s.offsetAt i) : Except _ α) := .error (h.exports fault i hfault)

theorem importedBinding (imported : ModuleName) : FailsOnly P (s.importedBinding i imported) := by
  unfold Stream.importedBinding
  split
  · exact .ok _
  · exact h.refuseImport _

theorem namedImports : FailsOnly P (s.namedImports i) := by
  fun_induction Stream.namedImports s i with
  | case1 | case5 => exact .ok _
  | case2 | case6 => exact h.refuseImport _
  | case3 i _ imported _ e he => exact .error (h.importedBinding i imported e he)
  | case4 _ _ _ _ _ _ _ ih => exact .map ih

theorem importGroup : FailsOnly P (s.importGroup i) := by
  unfold Stream.importGroup
  refine .ite (.ite ?_ (h.refuseImport _)) (.ite (.map (h.namedImports _)) (h.refuseImport _))
  split
  · exact .ok _
  · exact h.refuseImport _

theorem importBindings : FailsOnly P (s.importBindings i) := by
  unfold Stream.importBindings
  split
  · exact .map (h.importGroup i)
  · exact .ite (.map (h.importGroup _)) (.ok _)

theorem importClause : FailsOnly P (s.importClause i) := by
  unfold Stream.importClause
  refine .ite (.ok _) ?_
  split
  · exact .error (h.importBindings i _ ‹_›)
  · exact .ite (.ok _) (h.refuseImport _)

theorem importStatement : FailsOnly P (s.importStatement i) := by
  unfold Stream.importStatement
  split
  · exact .error (h.importClause (i + 1) _ ‹_›)
  · split
    · exact h.refuseImport _
    · exact .ok _

theorem functionDeclaration : FailsOnly P (s.functionDeclaration i) := by
  unfold Stream.functionDeclaration
  dsimp only
  refine .ite (h.refuseExport _ rfl) ?_
  split
  · exact h.refuseExport _ rfl
  · rename_i hbody
    split
    · exact .error (h.unclosed _ _ (by simpa using hbody) ‹_›)
    · exact .ok _

theorem classDeclaration : FailsOnly P (s.classDeclaration i) := by
  unfold Stream.classDeclaration
  split
  · exact h.refuseExport _ rfl
  · rename_i body hbody
    split
    · exact .error (h.unclosed _ _ (isAt_of_classBody? hbody) ‹_›)
    · exact .ok _

theorem exportSpecifier : FailsOnly P (s.exportSpecifier i) := by
  unfold Stream.exportSpecifier
  split
  · exact h.refuseExport _ rfl
  · refine .ite ?_ (.ok _)
    split
    · exact .ok _
    · exact h.refuseExport _ rfl

theorem exportSpecifiers : FailsOnly P (s.exportSpecifiers i) := by
  fun_induction Stream.exportSpecifiers s i with
  | case1 | case4 => exact .ok _
  | case2 i _ e he => exact .error (h.exportSpecifier i e he)
  | case3 _ _ _ _ _ ih => exact .map ih
  | case5 => exact h.refuseExport _ rfl

theorem exportList : FailsOnly P (s.exportList i) := by
  unfold Stream.exportList
  split
  · exact .error (h.exportSpecifiers (i + 2) _ ‹_›)
  · split
    · split
      · exact h.refuseExport _ rfl
      · exact .ok _
    · split
      · exact h.refuseExport _ rfl
      · exact .ok _

theorem exportVariables (keyword : Text.Span) : FailsOnly P (s.exportVariables i keyword) := by
  unfold Stream.exportVariables
  split
  · exact h.refuseExport _ rfl
  · exact .ok _

theorem exportDefault : FailsOnly P (s.exportDefault i) := by
  unfold Stream.exportDefault
  refine .ite (.map (h.functionDeclaration _)) (.ite (.map (h.classDeclaration _)) ?_)
  exact .ite (h.refuseExport _ rfl) (.ok _)

theorem exportDeclaration {form : DeclarationForm} {unnamed : ExportFault} {stop : Nat}
    (hunnamed : unnamed.isUnclosed = false) (d : Declaration) :
    FailsOnly P (exportDeclaration form unnamed ⟨s.offsetAt i, stop⟩ d) := by
  unfold Stream.exportDeclaration
  split
  · exact .ok _
  · exact h.refuseExport i hunnamed

theorem exportStatement : FailsOnly P (s.exportStatement i) := by
  unfold Stream.exportStatement
  dsimp only
  split
  · exact h.refuseExport _ rfl
  · rename_i next hnext
    refine .ite (h.exportDefault i) (.ite (h.exportVariables i _) ?_)
    refine .ite (.bind (h.functionDeclaration _) (h.exportDeclaration i rfl)) ?_
    refine .ite (.bind (h.classDeclaration _) (h.exportDeclaration i rfl)) ?_
    refine .ite (h.exportList i) (.ite (.error (h.unsupported _ i)) ?_)
    rw [show next.start = s.offsetAt (i + 1) by simp [offsetAt, hnext]]
    exact h.refuseExport _ rfl

theorem bindImports {b : Bindings} {st : ImportStatement} (hst : st.span.start = s.offsetAt i) :
    FailsOnly P (b.bindImports st) := by
  refine .foldlM fun _ _ => .ite ?_ (.ok _)
  rw [hst]
  exact h.refuseImport i

theorem visit (t : Token) (m : SourceModule) : FailsOnly P (s.visit i t m) := by
  unfold Stream.visit
  refine .ite (.ok _) (.ite ?_ (.ite (.map (h.exportStatement i)) (.ok _)))
  split
  · exact .error (h.importStatement i _ ‹_›)
  · rename_i hst
    exact .map (.map (h.bindImports i (start_of_importStatement hst)))

theorem moduleFrom (m : SourceModule) : FailsOnly P (s.moduleFrom i m) := by
  fun_induction Stream.moduleFrom s i m with
  | case1 => exact .ok _
  | case2 i m t _ e he => exact .error (h.visit i t m e he)
  | case3 _ _ _ _ _ _ _ ih => exact ih

end Stream.Refusals

end ModuleLowering
