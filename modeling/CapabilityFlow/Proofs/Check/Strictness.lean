import CapabilityFlow.Proofs.Check.Predecessors
import CapabilityFlow.Proofs.Report

/-!
# Stricter settings

A stricter setting makes a warning an error. The error may hide other findings, since a structural
one ends the check and one at a step leaves the step out of the levels above, so the findings of the
two checks cannot be compared one by one. The verdicts can: either there is no such warning, and
both checks give one report, or there is one, and the stricter check fails.
-/

namespace CapabilityFlow.Checker

variable {c c' : Checker} {w : Workflow} {e : CatalogEntry} {f : Finding}

/-- A checker for which a mutation without a checkpoint is an error. -/
def requiringCheckpoints (c : Checker) : Checker :=
  { c with settings := { c.settings with strictCheckpoints := true } }

/-- A checker for which another version of the ontology is an error. -/
def refusingVersions (c : Checker) : Checker :=
  { c with settings := { c.settings with versionRule := .refuse } }

@[simp] theorem ontology_requiringCheckpoints (c : Checker) :
    c.requiringCheckpoints.ontology = c.ontology :=
  rfl

@[simp] theorem registry_requiringCheckpoints (c : Checker) :
    c.requiringCheckpoints.registry = c.registry :=
  rfl

@[simp] theorem versionRule_requiringCheckpoints (c : Checker) :
    c.requiringCheckpoints.settings.versionRule = c.settings.versionRule :=
  rfl

@[simp] theorem ontology_refusingVersions (c : Checker) :
    c.refusingVersions.ontology = c.ontology :=
  rfl

@[simp] theorem registry_refusingVersions (c : Checker) :
    c.refusingVersions.registry = c.registry :=
  rfl

/-! ## Checks that fail, and checks that agree -/

theorem verdict_check_of_isHalting (h : isHalting (c.structureFindings e) = true) :
    (c.check e).verdict = .fail := by
  obtain ⟨f, hf, herr⟩ := List.any_eq_true.1 h
  rw [Bool.and_eq_true] at herr
  rw [check_of_isHalting h, WorkflowReport.verdict_eq_fail_iff]
  exact ⟨f, Finding.mem_sort.2 hf, herr.2⟩

theorem verdict_check_of_mem_relationFindings (h : isHalting (c.structureFindings e) = false)
    (hw : e.graph = some w) (hf : f ∈ c.relationFindings w) (herr : f.isError = true) :
    (c.check e).verdict = .fail := by
  have hmem : f ∈ c.structureFindings e ++ c.graphFindings w := by
    simp only [graphFindings_eq, List.mem_append]
    exact .inr (.inl (.inl hf))
  rw [check_of_not_isHalting h hw, WorkflowReport.verdict_eq_fail_iff]
  exact ⟨_, Finding.mem_sort.2 (List.mem_map_of_mem hmem), by rwa [Finding.isError_suggesting]⟩

/-- A report depends on what is found and on the registry only. -/
theorem check_congr (hstructure : c'.structureFindings e = c.structureFindings e)
    (hgraph : ∀ w, e.graph = some w → c'.graphFindings w = c.graphFindings w)
    (hregistry : c'.registry = c.registry) : c'.check e = c.check e := by
  unfold check
  rw [hstructure]
  cases hw : e.graph with
  | none => rfl
  | some w => simp only [repairs, hgraph w hw, hregistry]

/-! ## Checkpoints -/

theorem predecessorFindings_requiringCheckpoints {s : Step}
    (h : ∀ f ∈ c.requiringCheckpoints.predecessorFindings w s,
      f.code ≠ .mutationWithoutCheckpoint) :
    c.requiringCheckpoints.predecessorFindings w s = c.predecessorFindings w s := by
  unfold predecessorFindings at h ⊢
  cases hcap : c.ontology.get? s.capability with
  | none => simp only [ontology_requiringCheckpoints, hcap]
  | some cap =>
    simp only [ontology_requiringCheckpoints, hcap] at h ⊢
    have hnil : c.requiringCheckpoints.checkpointFindings w s cap = [] :=
      List.eq_nil_iff_forall_not_mem.2 fun f hf =>
        h f (List.mem_append_right _ hf) (of_mem_checkpointFindings hf).1
    -- The settings decide how grave the finding is, not whether there is one.
    have hnil' : c.checkpointFindings w s cap = [] := by
      unfold checkpointFindings at hnil ⊢
      split at hnil
      · cases hnil
      · rename_i hguard
        exact if_neg hguard
    rw [hnil, hnil']
    rfl

theorem relationFindings_requiringCheckpoints
    (h : ∀ f ∈ c.requiringCheckpoints.relationFindings w, f.code ≠ .mutationWithoutCheckpoint) :
    c.requiringCheckpoints.relationFindings w = c.relationFindings w := by
  have hpredecessors : w.steps.flatMap (c.requiringCheckpoints.predecessorFindings w) =
      w.steps.flatMap (c.predecessorFindings w) := by
    refine List.flatMap_congr fun s hs => predecessorFindings_requiringCheckpoints fun f hf => ?_
    refine h f ?_
    simp only [relationFindings, List.mem_append]
    exact .inl (.inl (List.mem_flatMap.2 ⟨s, hs, hf⟩))
  rw [relationFindings, hpredecessors]
  rfl

theorem graphFindings_requiringCheckpoints
    (h : ∀ f ∈ c.requiringCheckpoints.relationFindings w, f.code ≠ .mutationWithoutCheckpoint) :
    c.requiringCheckpoints.graphFindings w = c.graphFindings w := by
  unfold graphFindings
  rw [relationFindings_requiringCheckpoints h]
  rfl

/-- Requiring checkpoints changes nothing, or the check fails. -/
theorem check_requiringCheckpoints (c : Checker) (e : CatalogEntry) :
    c.requiringCheckpoints.check e = c.check e ∨
      (c.requiringCheckpoints.check e).verdict = .fail := by
  cases h : isHalting (c.requiringCheckpoints.structureFindings e) with
  | true => exact .inr (verdict_check_of_isHalting h)
  | false =>
    by_cases hmissing : ∃ w, e.graph = some w ∧ ∃ f ∈ c.requiringCheckpoints.relationFindings w,
        f.code = .mutationWithoutCheckpoint
    · obtain ⟨w, hw, f, hf, hcode⟩ := hmissing
      have herr : f.isError = true := (isError_of_mem_relationFindings hf hcode).2 rfl
      exact .inr (verdict_check_of_mem_relationFindings h hw hf herr)
    · have hstructure := structureFindings_congr (e := e) (ontology_requiringCheckpoints c)
        (versionRule_requiringCheckpoints c)
      have hgraph : ∀ w, e.graph = some w →
          c.requiringCheckpoints.graphFindings w = c.graphFindings w := fun w hw =>
        graphFindings_requiringCheckpoints fun f hf hcode => hmissing ⟨w, hw, f, hf, hcode⟩
      exact .inl (check_congr hstructure hgraph (registry_requiringCheckpoints c))

/-! ## Versions -/

theorem versionFinding?_refusingVersions (c : Checker) (e : CatalogEntry) :
    c.refusingVersions.versionFinding? e =
      (c.versionFinding? e).map fun f => { f with severity := .error } := by
  have hfault : c.refusingVersions.versionFault? = c.versionFault? :=
    funext fun _ => versionFault?_congr (ontology_refusingVersions c)
  have hseverity : c.refusingVersions.versionSeverity = .error := rfl
  simp only [versionFinding?, hfault, hseverity, Option.pure_def, Option.bind_eq_bind,
    Option.map_bind, Function.comp_def, Option.map_some]

/-- Refusing other versions changes nothing, or the check fails. -/
theorem check_refusingVersions (c : Checker) (e : CatalogEntry) :
    c.refusingVersions.check e = c.check e ∨ (c.refusingVersions.check e).verdict = .fail := by
  have hcapability := capabilityFindings_congr (e := e) (ontology_refusingVersions c)
  have hversion := versionFinding?_refusingVersions c e
  cases h : c.versionFinding? e with
  | none =>
    rw [h, Option.map_none] at hversion
    have hstructure : c.refusingVersions.structureFindings e = c.structureFindings e := by
      rw [structureFindings, hcapability, hversion, structureFindings, h]
    have hgraph : ∀ w, c.refusingVersions.graphFindings w = c.graphFindings w := fun _ => rfl
    exact .inl (check_congr hstructure (fun w _ => hgraph w) (registry_refusingVersions c))
  | some f =>
    rw [h, Option.map_some] at hversion
    have hmem : { f with severity := .error } ∈ c.refusingVersions.structureFindings e := by
      rw [structureFindings, hversion]
      exact List.mem_append_right _ (List.mem_singleton_self _)
    have hlevel := c.refusingVersions.level_of_versionFinding?_eq_some hversion
    refine .inr (verdict_check_of_isHalting (List.any_eq_true.2 ⟨_, hmem, ?_⟩))
    rw [hlevel]
    rfl

/-! ## Verdicts -/

/-- Stricter settings never give a better verdict. -/
theorem verdict_check_le_of_stricter (c : Checker) (e : CatalogEntry) :
    (c.check e).verdict ≤ (c.requiringCheckpoints.check e).verdict ∧
      (c.check e).verdict ≤ (c.refusingVersions.check e).verdict := by
  constructor
  · rcases check_requiringCheckpoints c e with h | h
    · rw [h]
      exact Verdict.refl_le _
    · rw [h]
      exact Verdict.le_fail _
  · rcases check_refusingVersions c e with h | h
    · rw [h]
      exact Verdict.refl_le _
    · rw [h]
      exact Verdict.le_fail _

end CapabilityFlow.Checker
