import ModuleLowering.Proofs.Lowering.Failures
import ModuleLowering.Proofs.Scan.Escapes
import ModuleLowering.Proofs.Statement.Refusals
import ModuleLowering.Proofs.Text.Columns

namespace ModuleLowering

open Text

variable {source : List Char} {s : Stream}

def Diagnostic.FallsOn (source : List Char) (d : Diagnostic) : Prop := IsBoundary source d.offset

open Diagnostic (FallsOn)

theorem Stream.WellFormed.refusals (hs : s.WellFormed source) : s.Refusals (FallsOn source) := by
  have hoffset (i : Nat) : IsBoundary source (s.offsetAt i) := by
    rcases Nat.lt_or_ge i s.tokens.size with hi | hi
    · exact hs.isBoundary_offsetAt hi
    · rw [Stream.offsetAt, Array.getElem?_eq_none hi, Option.map_none, Option.getD_none, hs.stop_eq]
      simpa using isBoundary_byteLength source []
  exact ⟨fun _ i => hoffset i, fun _ i _ => hoffset i, fun _ i _ _ => hoffset i, fun _ i => hoffset i⟩

theorem fallsOn_lowerStream (hs : scan source = .ok s) (options : Options) :
    FailsOnly (FallsOn source) (lowerStream source options s) := by
  intro d hd
  have hformed := Stream.wellFormed_of_scan hs
  rcases lowerStream_error_cases hd with hd | ⟨m, hm, hd⟩
  · exact hformed.refusals.moduleFrom 0 .empty d hd
  · obtain ⟨i, t, htag, rfl⟩ := Context.edits_error hs hm hd
    exact (hformed.standsIn htag.token).isBoundary_start

theorem fallsOn_scan {e : ScanError} (h : scan source = .error (.rejected e)) :
    FallsOn source (.ofScan e) := Stream.isBoundary_of_read_rejected (map_eq_error_iff.1 h)

theorem exists_of_lower_rejected {options : Options} {d : LocatedDiagnostic}
    (h : lower source options = .error (.rejected d)) :
    ∃ e : Diagnostic, d = e.locate source ∧ ((∃ e', scan source = .error (.rejected e') ∧ e = .ofScan e') ∨
      ∃ s, scan source = .ok s ∧ lowerStream source options s = .error e) := by
  unfold lower at h
  split at h
  · cases h
  · split at h
    · rename_i failure hscan
      cases failure with
      | splitCharacter => cases h
      | rejected e =>
        cases h
        exact ⟨_, rfl, .inl ⟨e, hscan, rfl⟩⟩
    · rename_i s hscan
      cases hstream : lowerStream source options s with
      | ok => simp [hstream, Except.mapError] at h
      | error e =>
        simp only [hstream, Except.mapError, Except.error.injEq, Failure.rejected.injEq] at h
        exact ⟨e, h.symm, .inr ⟨s, hscan, hstream⟩⟩

/-- Every error stands in the source, between two characters or at an end, and is told with the line and the
column of its place. -/
theorem errors_located {options : Options} {d : LocatedDiagnostic}
    (h : lower source options = .error (.rejected d)) :
    d.offset ≤ byteLength source ∧ IsBoundary source d.offset ∧ LocatedAt source d.offset d.location := by
  obtain ⟨e, rfl, hfails⟩ := exists_of_lower_rejected h
  have hboundary : IsBoundary source e.offset := by
    rcases hfails with ⟨e, hscan, rfl⟩ | ⟨s, hscan, hstream⟩
    · exact fallsOn_scan hscan
    · exact fallsOn_lowerStream hscan options e hstream
  exact ⟨hboundary.le_byteLength, hboundary, locatedAt_location hboundary⟩

theorem error_located_after_accent :
    let source := "f();\n'é'; export 5;".toList
    ∃ d, lower source .lowering = .error (.rejected d) ∧ d.location = ⟨2, 13⟩ ∧
      LocatedAt source d.offset d.location := by
  intro source
  have h : (match lower source .lowering with
      | .error (.rejected d) => decide (d.location = ⟨2, 13⟩)
      | _ => false) = true := by decide +kernel
  split at h
  · rename_i d hd
    exact ⟨d, hd, of_decide_eq_true h, (errors_located hd).2.2⟩
  · cases h

end ModuleLowering
