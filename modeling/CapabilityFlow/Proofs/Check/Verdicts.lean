import CapabilityFlow.CommandLine.Run
import CapabilityFlow.Proofs.Check.Exclusion
import CapabilityFlow.Proofs.Check.Parallel
import CapabilityFlow.Proofs.Report

/-!
# What makes a run fail

The exit code, the verdicts and the counts of a report are each computed from the findings in their
own way. They agree (`CatalogReport.Agrees`), and they agree on an error of the first three levels:
the policies leave every finding at its default severity, which is a warning.
-/

namespace CapabilityFlow

open CommandLine

/-! ## Policies only warn -/

theorem Code.defaultSeverity_of_level {code : Code} (h : code.level = .policy) :
    code.defaultSeverity = .warning := by
  cases code <;> first | rfl | cases h

namespace Checker

variable {c : Checker} {w : Workflow} {s : Step} {f : Finding}

theorem severity_of_mem_sendFindings (hf : f ∈ c.sendFindings w s) :
    f.severity = f.code.defaultSeverity := by
  unfold sendFindings at hf
  split at hf
  · obtain rfl := List.mem_singleton.1 hf
    rfl
  · cases hf

theorem severity_of_mem_approvalFindings {cap : Capability} (hf : f ∈ approvalFindings w s cap) :
    f.severity = f.code.defaultSeverity := by
  unfold approvalFindings at hf
  split at hf
  · obtain rfl := List.mem_singleton.1 hf
    rfl
  · cases hf

theorem severity_of_riskFinding?_eq_some {steps : List Step}
    (hf : c.riskFinding? w steps = some f) : f.severity = f.code.defaultSeverity := by
  obtain ⟨declared, -, h⟩ := Option.bind_eq_some_iff.1 hf
  obtain ⟨highest, -, h⟩ := Option.bind_eq_some_iff.1 h
  cases h
  rfl

theorem severity_of_mem_policyFindings {steps : List Step} (hf : f ∈ c.policyFindings w steps) :
    f.severity = f.code.defaultSeverity := by
  rcases List.mem_append.1 hf with h | h
  · obtain ⟨s, -, h⟩ := List.mem_flatMap.1 h
    unfold safetyFindings at h
    split at h
    · cases h
    · rcases List.mem_append.1 h with h | h
      · exact severity_of_mem_sendFindings h
      · exact severity_of_mem_approvalFindings h
  · exact severity_of_riskFinding?_eq_some (Option.mem_toList.1 h)

/-- No finding of the fourth level is an error, and so none makes a run fail. -/
theorem isError_eq_false_of_mem_check {e : CatalogEntry} (he : e.Loaded)
    (hf : f ∈ (c.check e).findings) (hl : f.level = .policy) : f.isError = false := by
  obtain hstructural | ⟨-, w, -, g, hg, rfl⟩ := level_eq_structural_or_exists he hf
  · rw [hl] at hstructural
    cases hstructural
  · rw [hl] at hg
    rw [Finding.level_suggesting] at hl
    rw [Finding.isError_suggesting, Finding.isError, severity_of_mem_policyFindings hg,
      Code.defaultSeverity_of_level hl]
    rfl

end Checker

/-! ## Agreement -/

namespace CatalogReport

/-- A report without the findings that a test does not keep. -/
def keeping (keep : Finding → Bool) (r : CatalogReport) : CatalogReport :=
  ⟨r.workflows.map fun w => { w with findings := w.findings.filter keep }⟩

theorem findings_keeping (keep : Finding → Bool) (r : CatalogReport) :
    (r.keeping keep).findings = r.findings.filter keep := by
  simp [findings, keeping, List.flatMap_map, List.filter_flatMap]

/-- Some workflow has an error of one of the first three levels. -/
def HasFailure (r : CatalogReport) : Prop :=
  ∃ w ∈ r.workflows, ∃ f ∈ w.findings, f.isError = true ∧
    f.level ∈ [Level.structural, .edges, .contracts]

/-- All that a report on a number of workflows says of success and failure: it fails by one of the
first three levels only, whichever part of it is asked. -/
structure Agrees (r : CatalogReport) (workflows : Nat) : Prop where
  hasErrors : r.hasErrors = true ↔ r.HasFailure
  exit : ∀ format verbose, (showReport format verbose r).exit = 1 ↔ r.HasFailure
  verdict : r.verdict = .fail ↔ r.HasFailure
  failed : 0 < r.summary.failed ↔ r.HasFailure
  errors : 0 < r.summary.errors ↔ r.HasFailure
  policy : ∀ f ∈ r.findings, f.level = .policy → f.isError = false
  workflows : r.summary.passed + r.summary.failed = workflows
  findings : r.summary.errors + r.summary.warnings = r.findings.length
  /-- Findings about policies can be left out, all of them or some. -/
  keeping : ∀ keep : Finding → Bool, (∀ f, f.level ≠ .policy → keep f = true) →
    (r.keeping keep).hasErrors = r.hasErrors

theorem exit_showReport (r : CatalogReport) (format : CommandLine.Format) (verbose : Bool) :
    (showReport format verbose r).exit = 1 ↔ r.hasErrors = true := by
  unfold showReport
  cases format <;> cases r.hasErrors <;> simp

variable {r : CatalogReport}

theorem hasFailure_iff (h : ∀ f ∈ r.findings, f.level = .policy → f.isError = false) :
    r.HasFailure ↔ ∃ f ∈ r.findings, f.isError = true := by
  have hlevel : ∀ l : Level, l ∈ [Level.structural, .edges, .contracts] ↔ l ≠ .policy := by
    intro l
    cases l <;> decide
  simp only [HasFailure, findings, List.mem_flatMap, hlevel] at h ⊢
  constructor
  · rintro ⟨w, hw, f, hf, herr, -⟩
    exact ⟨f, ⟨w, hw, hf⟩, herr⟩
  · rintro ⟨f, ⟨w, hw, hf⟩, herr⟩
    refine ⟨w, hw, f, hf, herr, fun hl => ?_⟩
    simp [h f ⟨w, hw, hf⟩ hl] at herr

/-- What is left out is no error, so what is left has the same errors. -/
theorem hasErrors_keeping (h : ∀ f ∈ r.findings, f.level = .policy → f.isError = false)
    {keep : Finding → Bool} (hkeep : ∀ f, f.level ≠ .policy → keep f = true) :
    (r.keeping keep).hasErrors = r.hasErrors := by
  rw [Bool.eq_iff_iff, hasErrors_iff, hasErrors_iff, findings_keeping]
  constructor
  · rintro ⟨f, hf, herr⟩
    exact ⟨f, (List.mem_filter.1 hf).1, herr⟩
  · rintro ⟨f, hf, herr⟩
    have hl : f.level ≠ .policy := fun hl => by simp [h f hf hl] at herr
    exact ⟨f, List.mem_filter.2 ⟨hf, hkeep f hl⟩, herr⟩

/-- All parts of a report agree as soon as policies only warn. -/
theorem agrees_of_policy (h : ∀ f ∈ r.findings, f.level = .policy → f.isError = false) :
    r.Agrees r.workflows.length where
  hasErrors := hasErrors_iff.trans (hasFailure_iff h).symm
  exit := fun format verbose =>
    (exit_showReport r format verbose).trans (hasErrors_iff.trans (hasFailure_iff h).symm)
  verdict := verdict_eq_fail_iff.trans (hasFailure_iff h).symm
  failed := failed_pos_iff.trans (hasFailure_iff h).symm
  errors := errors_pos_iff.trans (hasFailure_iff h).symm
  policy := h
  workflows := passed_add_failed
  findings := errors_add_warnings
  keeping := fun _ hkeep => hasErrors_keeping h hkeep

end CatalogReport

namespace Checker

theorem mem_findings_checkAll_iff {c : Checker} {es : List CatalogEntry} {f : Finding} :
    f ∈ (c.checkAll es).findings ↔ ∃ e ∈ es, f ∈ (c.check e).findings := by
  simp only [CatalogReport.findings, List.mem_flatMap, checkAll,
    (CatalogReport.perm_ofReports _).mem_iff, List.mem_map, exists_exists_and_eq_and]

/-- Exit code, verdicts and counts of a check of loaded workflows agree, and no policy makes it
fail. -/
theorem agrees_checkAll (c : Checker) (es : List CatalogEntry) (hes : ∀ e ∈ es, e.Loaded) :
    (c.checkAll es).Agrees es.length := by
  have hlength : (c.checkAll es).workflows.length = es.length := by
    rw [checkAll, (CatalogReport.perm_ofReports _).length_eq, List.length_map]
  rw [← hlength]
  refine CatalogReport.agrees_of_policy fun f hf hl => ?_
  obtain ⟨e, he, hf⟩ := mem_findings_checkAll_iff.1 hf
  exact isError_eq_false_of_mem_check (hes e he) hf hl

/-- The sample fails by its type mismatch, although there is a patch for it. -/
theorem agrees_checkAll_sample : (∀ e ∈ [Sample.entry], e.Loaded) ∧
    (Sample.checker.checkAll [Sample.entry]).Agrees 1 ∧
    (Sample.checker.checkAll [Sample.entry]).HasFailure :=
  have he : ∀ e ∈ [Sample.entry], e.Loaded := fun _ h =>
    List.mem_singleton.1 h ▸ .authored 10 "w" Sample.workflow
  have h := agrees_checkAll Sample.checker [Sample.entry] he
  ⟨he, h, h.hasErrors.1 (by decide +kernel)⟩

end Checker

end CapabilityFlow
