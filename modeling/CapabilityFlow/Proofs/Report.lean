import CapabilityFlow.Report
import Mathlib.Data.List.Basic

/-!
# What reports count

Verdicts are ordered from the best to the worst, and the verdict on several workflows is the worst
of theirs (`Verdict.foldl_worse_le_iff`). All that a report says of itself can be read off its
findings: whether it has errors, whether its verdict is a failure, how many workflows fail, and how
many errors and warnings there are.
-/

namespace CapabilityFlow

namespace Verdict

/-- The place of a verdict in the order of verdicts. -/
def rank : Verdict → Nat
  | pass => 0
  | passWithWarnings => 1
  | fail => 2

/-- Better verdicts come first. -/
instance : LE Verdict :=
  ⟨fun v u => v.rank ≤ u.rank⟩

instance (v u : Verdict) : Decidable (v ≤ u) :=
  inferInstanceAs (Decidable (v.rank ≤ u.rank))

theorem refl_le (v : Verdict) : v ≤ v :=
  Nat.le_refl v.rank

theorem le_fail (v : Verdict) : v ≤ fail := by
  cases v <;> decide

theorem eq_fail_iff {v : Verdict} : v = fail ↔ ¬v ≤ passWithWarnings := by
  cases v <;> decide

theorem worse_le_iff {v v' u : Verdict} : worse v v' ≤ u ↔ v ≤ u ∧ v' ≤ u := by
  cases v <;> cases v' <;> cases u <;> decide

/-- The worst verdict is the least that is no better than any of them. -/
theorem foldl_worse_le_iff {vs : List Verdict} {v u : Verdict} :
    vs.foldl worse v ≤ u ↔ v ≤ u ∧ ∀ x ∈ vs, x ≤ u := by
  induction vs generalizing v with
  | nil => simp
  | cons x rest ih => rw [List.foldl_cons, ih, worse_le_iff, List.forall_mem_cons, and_assoc]

theorem ofFindings_eq_fail_iff {fs : List Finding} :
    ofFindings fs = fail ↔ ∃ f ∈ fs, f.isError = true := by
  rw [← List.any_eq_true]
  unfold ofFindings
  split
  · simp [*]
  · split <;> simp [*]

/-- A verdict depends on the findings only through whether they are errors. -/
theorem ofFindings_eq_of_map_isError {fs gs : List Finding}
    (h : fs.map (·.isError) = gs.map (·.isError)) : ofFindings fs = ofFindings gs := by
  have hany : ∀ hs : List Finding, hs.any (·.isError) = (hs.map (·.isError)).any id :=
    fun hs => by
      rw [List.any_map]
      rfl
  have hempty : ∀ hs : List Finding, hs.isEmpty = (hs.map (·.isError)).isEmpty :=
    fun hs => by simp
  rw [ofFindings, ofFindings, hany, hany, hempty, hempty gs, h]

end Verdict

theorem WorkflowReport.verdict_eq_fail_iff {r : WorkflowReport} :
    r.verdict = .fail ↔ ∃ f ∈ r.findings, f.isError = true :=
  Verdict.ofFindings_eq_fail_iff

namespace CatalogReport

/-- All findings of a report. -/
def findings (r : CatalogReport) : List Finding :=
  r.workflows.flatMap (·.findings)

variable {r : CatalogReport}

theorem exists_verdict_eq_fail_iff : (∃ w ∈ r.workflows, w.verdict = .fail) ↔
    ∃ f ∈ r.findings, f.isError = true := by
  simp only [WorkflowReport.verdict_eq_fail_iff, findings, List.mem_flatMap]
  constructor
  · rintro ⟨w, hw, f, hf, herr⟩
    exact ⟨f, ⟨w, hw, hf⟩, herr⟩
  · rintro ⟨f, ⟨w, hw, hf⟩, herr⟩
    exact ⟨w, hw, f, hf, herr⟩

theorem hasErrors_iff : r.hasErrors = true ↔ ∃ f ∈ r.findings, f.isError = true := by
  simp only [hasErrors, List.any_eq_true, decide_eq_true_eq, exists_verdict_eq_fail_iff]

theorem verdict_eq_fail_iff : r.verdict = .fail ↔ ∃ f ∈ r.findings, f.isError = true := by
  have hpass : Verdict.pass ≤ .passWithWarnings := by decide
  rw [← exists_verdict_eq_fail_iff, Verdict.eq_fail_iff, verdict, Verdict.foldl_worse_le_iff]
  simp only [hpass, true_and, List.forall_mem_map, Verdict.eq_fail_iff, not_forall, exists_prop]

theorem failed_pos_iff : 0 < r.summary.failed ↔ ∃ f ∈ r.findings, f.isError = true := by
  simp only [summary, List.countP_pos_iff, decide_eq_true_eq, exists_verdict_eq_fail_iff]

/-- A workflow passes exactly when it does not fail. -/
theorem passed_add_failed : r.summary.passed + r.summary.failed = r.workflows.length := by
  rw [List.length_eq_countP_add_countP (·.verdict ≠ .fail)]
  simp [summary]

theorem errors_eq : r.summary.errors = r.findings.countP (·.isError) := by
  rw [findings, List.countP_flatMap, List.sum_eq_foldl]
  rfl

theorem warnings_eq : r.summary.warnings = r.findings.countP (!·.isError) := by
  rw [findings, List.countP_flatMap, List.sum_eq_foldl]
  rfl

theorem errors_pos_iff : 0 < r.summary.errors ↔ ∃ f ∈ r.findings, f.isError = true := by
  rw [errors_eq, List.countP_pos_iff]

/-- A finding is an error or a warning. -/
theorem errors_add_warnings : r.summary.errors + r.summary.warnings = r.findings.length := by
  rw [errors_eq, warnings_eq, List.length_eq_countP_add_countP (·.isError)]
  simp

end CatalogReport

end CapabilityFlow
