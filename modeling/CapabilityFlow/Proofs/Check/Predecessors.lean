import CapabilityFlow.Proofs.Check.Contracts
import CapabilityFlow.Proofs.Ontology.Requirements

/-!
# What has to run before a step

Four rules look at the steps before a step and outside of its parallel group: a requirement, a wish, a
checkpoint before a mutation and a safeguard before data is sent. `Workflow.HasBefore` says what they
look for, and `Checker.Foretells` when a report has their findings. A requirement is met by the
capability or by a direct alternative to it, and by no further step along the edges.
-/

namespace CapabilityFlow

/-- A report has a finding of a code at a step. -/
def WorkflowReport.Carries (r : WorkflowReport) (code : Code) (index : Nat) : Prop :=
  ∃ f ∈ r.findings, f.code = code ∧ f.location.index = some index

/-! ## Steps before a step -/

namespace Workflow

/-- A step before another one, and outside of its parallel group, runs a capability of a kind. -/
def HasBefore (w : Workflow) (s : Step) (P : String → Prop) : Prop :=
  ∃ t ∈ w.steps, t.index < s.index ∧ (∀ group, s.group = some group → t.group ≠ some group) ∧
    P t.capability

variable {w : Workflow}

theorem WellFormed.runsBefore_iff (hw : w.WellFormed) {s : Step} {p : String → Bool} :
    w.runsBefore s p = true ↔ w.HasBefore s fun id => p id = true := by
  simp only [runsBefore, List.any_eq_true, hw.mem_take_iff, Bool.and_eq_true, Bool.not_eq_true',
    HasBefore, and_assoc]
  refine exists_congr fun t => and_congr_right fun _ => and_congr_right fun hlt => ?_
  rw [Step.isSibling_eq_false_iff (Nat.ne_of_gt hlt)]

theorem WellFormed.runsBefore_contains_iff (hw : w.WellFormed) {s : Step} {ids : List String} :
    w.runsBefore s (ids.contains ·) = true ↔ w.HasBefore s (· ∈ ids) := by
  simp only [hw.runsBefore_iff, List.contains_iff_mem]

end Workflow

namespace Checker

variable {c : Checker} {w : Workflow} {s : Step} {f : Finding}

/-! ## What each rule looks for -/

/-- A capability, or a direct alternative to it, runs before a step. -/
def MeetsBefore (c : Checker) (w : Workflow) (s : Step) (wanted : String) : Prop :=
  w.HasBefore s fun id => id = wanted ∨ ⟨wanted, id, .alternativeTo⟩ ∈ c.ontology.edges

theorem isSatisfiedBefore_iff (hw : w.WellFormed) {wanted : String} :
    c.isSatisfiedBefore w s wanted = true ↔ c.MeetsBefore w s wanted := by
  simp only [isSatisfiedBefore, hw.runsBefore_iff, MeetsBefore, Bool.or_eq_true, decide_eq_true_eq,
    List.contains_iff_mem, Ontology.alternatives, Ontology.mem_neighbors_iff]

theorem unmet_ne_nil_iff (hw : w.WellFormed) {kind : EdgeKind} : c.unmet w s kind ≠ [] ↔
    ∃ id, ⟨s.capability, id, kind⟩ ∈ c.ontology.edges ∧ ¬c.MeetsBefore w s id := by
  simp only [ne_eq, unmet, List.filter_eq_nil_iff, not_forall, Bool.not_eq_true', not_not,
    Ontology.mem_neighbors_iff, ← isSatisfiedBefore_iff hw, exists_prop,
    Bool.not_eq_true]

theorem checkpointFindings_ne_nil_iff (hw : w.WellFormed) {cap : Capability} :
    c.checkpointFindings w s cap ≠ [] ↔
      cap.mutation = true ∧ ¬w.HasBefore s (· ∈ c.settings.checkpoints) := by
  have hcheckpoint : c.settings.isCheckpoint = (c.settings.checkpoints.contains ·) := rfl
  rw [← hw.runsBefore_contains_iff, checkpointFindings, hcheckpoint]
  split <;> rename_i h <;> simpa using h

theorem sendFindings_ne_nil_iff (hw : w.WellFormed) : c.sendFindings w s ≠ [] ↔
    s.capability ∈ c.settings.sends ∧ ¬w.HasBefore s (· ∈ c.settings.safeguards) := by
  have hsafeguard : c.settings.isSafeguard = (c.settings.safeguards.contains ·) := rfl
  rw [← hw.runsBefore_contains_iff, ← List.contains_iff_mem, sendFindings, hsafeguard]
  split <;> rename_i h <;> simpa [Settings.isSend] using h

/-! ## Findings at a step -/

/-- The code of a finding at a step tells the rule that reports it. -/
theorem exists_mem_predecessorFindings_iff {cap : Capability}
    (hcap : c.ontology.get? s.capability = some cap) {code : Code} :
    (∃ f ∈ c.predecessorFindings w s, f.code = code) ↔
      code = .requirementUnmet ∧ c.unmet w s .requires ≠ [] ∨
      code = .softRequirementUnmet ∧ c.unmet w s .softRequires ≠ [] ∨
      code = .mutationWithoutCheckpoint ∧ c.checkpointFindings w s cap ≠ [] := by
  simp only [predecessorFindings, hcap, List.mem_append, or_assoc]
  constructor
  · rintro ⟨f, h | h | h, rfl⟩
    · obtain ⟨id, hid, -⟩ := List.mem_map.1 h
      exact .inl ⟨(of_mem_requirementFindings h).1, List.ne_nil_of_mem hid⟩
    · obtain ⟨id, hid, -⟩ := List.mem_map.1 h
      exact .inr (.inl ⟨(of_mem_softRequirementFindings h).1, List.ne_nil_of_mem hid⟩)
    · exact .inr (.inr ⟨(of_mem_checkpointFindings h).1, List.ne_nil_of_mem h⟩)
  · rintro (⟨rfl, h⟩ | ⟨rfl, h⟩ | ⟨rfl, h⟩)
    · obtain ⟨id, hid⟩ := List.exists_mem_of_ne_nil _ h
      exact ⟨_, .inl (List.mem_map_of_mem hid), rfl⟩
    · obtain ⟨id, hid⟩ := List.exists_mem_of_ne_nil _ h
      exact ⟨_, .inr (.inl (List.mem_map_of_mem hid)), rfl⟩
    · obtain ⟨f, hf⟩ := List.exists_mem_of_ne_nil _ h
      exact ⟨f, .inr (.inr hf), (of_mem_checkpointFindings hf).1⟩

/-- Findings at a step are those of the step itself, or about pairs of steps. -/
theorem exists_mem_relationFindings_iff (hw : w.WellFormed) (hs : s ∈ w.steps) {code : Code}
    (hconflict : code ≠ .conflictingCapabilities) (hordering : code ≠ .orderingViolation) :
    (∃ f ∈ c.relationFindings w, f.code = code ∧ f.location.index = some s.index) ↔
      ∃ f ∈ c.predecessorFindings w s, f.code = code := by
  constructor
  · rintro ⟨f, hf, hcode, hi⟩
    simp only [relationFindings, List.mem_append] at hf
    rcases hf with (h | h) | h
    · obtain ⟨t, ht, h⟩ := List.mem_flatMap.1 h
      rw [(of_mem_predecessorFindings h).2] at hi
      obtain rfl := hw.eq_of_index_eq ht hs (Option.some.inj hi)
      exact ⟨f, h, hcode⟩
    · exact absurd (hcode.symm.trans (code_of_mem_conflictFindings h)) hconflict
    · exact absurd (hcode.symm.trans (code_of_mem_orderingFindings h)) hordering
  · rintro ⟨f, hf, hcode⟩
    refine ⟨f, ?_, hcode, by rw [(of_mem_predecessorFindings hf).2]; rfl⟩
    simp only [relationFindings, List.mem_append]
    exact .inl (.inl (List.mem_flatMap.2 ⟨s, hs, hf⟩))

theorem exists_mem_policyFindings_iff (hw : w.WellFormed) {steps : List Step} (hs : s ∈ steps)
    (hsteps : ∀ t ∈ steps, t ∈ w.steps) {cap : Capability}
    (hcap : c.ontology.get? s.capability = some cap) :
    (∃ f ∈ c.policyFindings w steps, f.code = .sendWithoutSafeguard ∧
        f.location.index = some s.index) ↔ c.sendFindings w s ≠ [] := by
  constructor
  · rintro ⟨f, hf, hcode, hi⟩
    rcases List.mem_append.1 hf with h | h
    · obtain ⟨t, ht, h⟩ := List.mem_flatMap.1 h
      unfold safetyFindings at h
      split at h
      · cases h
      rcases List.mem_append.1 h with h | h
      · rw [(of_mem_sendFindings h).2] at hi
        obtain rfl := hw.eq_of_index_eq (hsteps t ht) (hsteps s hs) (Option.some.inj hi)
        exact List.ne_nil_of_mem h
      · cases hcode.symm.trans (of_mem_approvalFindings h).1
    · cases hcode.symm.trans (of_riskFinding?_eq_some (Option.mem_toList.1 h)).1
  · intro h
    obtain ⟨f, hf⟩ := List.exists_mem_of_ne_nil _ h
    obtain ⟨hcode, hl⟩ := of_mem_sendFindings hf
    refine ⟨f, ?_, hcode, by rw [hl]; rfl⟩
    refine List.mem_append_left _ (List.mem_flatMap.2 ⟨s, hs, ?_⟩)
    simpa only [safetyFindings, hcap, List.mem_append] using .inl hf

variable {e : CatalogEntry}

/-- Without structural errors there is a graph, and references can be followed in it. -/
theorem exists_graph_of_not_isHalting (he : e.Loaded) (h : isHalting (c.check e).findings = false) :
    isHalting (c.structureFindings e) = false ∧ ∃ w, e.graph = some w ∧
      ∀ inputs, (c.scope w inputs).WellFormed := by
  rw [isHalting_findings_check he] at h
  obtain ⟨w, hw⟩ := exists_graph he h
  exact ⟨h, w, hw, wellFormed_scope he h hw⟩

/-- A report without structural errors carries a code at a step exactly when its level finds it. -/
theorem carries_check_iff (he : e.Loaded) (h : isHalting (c.structureFindings e) = false)
    (hw : e.graph = some w) {code : Code} {index : Nat} :
    (c.check e).Carries code index ↔ ∃ f ∈ c.levelFindings w e code.level,
      f.code = code ∧ f.location.index = some index := by
  constructor
  · rintro ⟨f, hf, rfl, hi⟩
    obtain ⟨g, hg, rfl⟩ := exists_of_mem_findings_check he h hw hf
    rw [Finding.location_suggesting] at hi
    rw [Finding.code_suggesting]
    rw [Finding.level_suggesting] at hg
    exact ⟨g, hg, rfl, hi⟩
  · rintro ⟨g, hg, rfl, hi⟩
    have hmem := (perm_atLevel_check he h hw g.code.level).mem_iff.2 (List.mem_map_of_mem hg)
    exact ⟨_, (List.mem_filter.1 hmem).1, Finding.code_suggesting _ _, by simpa using hi⟩

/-! ## Exact predecessor rules -/

/-- A report says of a step what has to run before it and does not. -/
structure Foretells (c : Checker) (w : Workflow) (r : WorkflowReport) (s : Step) (cap : Capability) :
    Prop where
  required : r.Carries .requirementUnmet s.index ↔
    ∃ id, ⟨s.capability, id, .requires⟩ ∈ c.ontology.edges ∧ ¬c.MeetsBefore w s id
  wished : r.Carries .softRequirementUnmet s.index ↔
    ∃ id, ⟨s.capability, id, .softRequires⟩ ∈ c.ontology.edges ∧ ¬c.MeetsBefore w s id
  checkpoint : r.Carries .mutationWithoutCheckpoint s.index ↔
    cap.mutation = true ∧ ¬w.HasBefore s (· ∈ c.settings.checkpoints)
  strict : ∀ f ∈ r.findings, f.code = .mutationWithoutCheckpoint →
    f.location.index = some s.index → (f.isError = true ↔ c.settings.strictCheckpoints = true)
  safeguard : r.hasErrorAt .edges s.index = false → r.hasErrorAt .contracts s.index = false →
    (r.Carries .sendWithoutSafeguard s.index ↔
      s.capability ∈ c.settings.sends ∧ ¬w.HasBefore s (· ∈ c.settings.safeguards))

theorem isError_of_mem_relationFindings (hf : f ∈ c.relationFindings w)
    (hcode : f.code = .mutationWithoutCheckpoint) :
    f.isError = true ↔ c.settings.strictCheckpoints = true := by
  simp only [relationFindings, List.mem_append] at hf
  rcases hf with (h | h) | h
  · obtain ⟨s, -, h⟩ := List.mem_flatMap.1 h
    unfold predecessorFindings at h
    split at h
    · cases h
    · simp only [List.mem_append] at h
      rcases h with (h | h) | h
      · cases hcode.symm.trans (of_mem_requirementFindings h).1
      · cases hcode.symm.trans (of_mem_softRequirementFindings h).1
      · exact (of_mem_checkpointFindings h).2.2
  · cases hcode.symm.trans (code_of_mem_conflictFindings h)
  · cases hcode.symm.trans (code_of_mem_orderingFindings h)

/-- Predecessor rules are decided exactly: without structural errors, a report has the findings of a
step about what has to run before it exactly when it does not. -/
theorem foretells_check (c : Checker) (e : CatalogEntry) (he : e.Loaded)
    (h : isHalting (c.check e).findings = false) :
    ∃ w, e.graph = some w ∧ ∀ s ∈ w.steps, ∃ cap, c.ontology.get? s.capability = some cap ∧
      c.Foretells w (c.check e) s cap := by
  obtain ⟨h, w, hg, hscope⟩ := exists_graph_of_not_isHalting he h
  have hw : w.WellFormed := (hscope (c.inputsType w)).workflow
  refine ⟨w, hg, fun s hs => ?_⟩
  obtain ⟨cap, hcap⟩ := (hscope (c.inputsType w)).known s hs
  have hcarries : ∀ code : Code, code.level = .edges → code ≠ .conflictingCapabilities →
      code ≠ .orderingViolation → ((c.check e).Carries code s.index ↔
        code = .requirementUnmet ∧ c.unmet w s .requires ≠ [] ∨
        code = .softRequirementUnmet ∧ c.unmet w s .softRequires ≠ [] ∨
        code = .mutationWithoutCheckpoint ∧ c.checkpointFindings w s cap ≠ []) := by
    intro code hl hconflict hordering
    rw [carries_check_iff he h hg, hl, ← exists_mem_predecessorFindings_iff hcap]
    exact exists_mem_relationFindings_iff hw hs hconflict hordering
  refine ⟨cap, hcap, ?_, ?_, ?_, ?_, ?_⟩
  · rw [hcarries .requirementUnmet rfl (by decide) (by decide), ← unmet_ne_nil_iff hw]
    simp
  · rw [hcarries .softRequirementUnmet rfl (by decide) (by decide), ← unmet_ne_nil_iff hw]
    simp
  · rw [hcarries .mutationWithoutCheckpoint rfl (by decide) (by decide),
      ← checkpointFindings_ne_nil_iff hw]
    simp
  · intro f hf hcode hi
    obtain ⟨g, hg', rfl⟩ := exists_of_mem_findings_check he h hg hf
    rw [Finding.code_suggesting] at hcode
    rw [Finding.level_suggesting, Finding.level, hcode] at hg'
    rw [Finding.isError_suggesting]
    exact isError_of_mem_relationFindings hg' hcode
  · intro hedges hcontracts
    have hmem : s ∈ c.policySteps w := by
      rw [policySteps_eq he h hg]
      exact List.mem_filter.2 ⟨hs, by simp [hedges, hcontracts]⟩
    rw [carries_check_iff he h hg, ← sendFindings_ne_nil_iff hw]
    exact exists_mem_policyFindings_iff hw hmem (fun t ht => (mem_stepsExcept_iff.1 ht).1) hcap

namespace Publishing

/-- `detect` requires `search`, for which `retrieve` can stand in, and `send` wishes for `constrain`. -/
def ontology : Ontology where
  version := ⟨1, 0, 0, "", ""⟩
  capabilities := [
    Sample.capability "search" .any .any,
    Sample.capability "retrieve" .any .any,
    Sample.capability "detect" .any .any,
    { Sample.capability "write" .any .any with mutation := true },
    Sample.capability "send" .any .any,
    Sample.capability "checkpoint" .any .any,
    Sample.capability "constrain" .any .any]
  edges := [
    ⟨"detect", "search", .requires⟩,
    ⟨"search", "retrieve", .alternativeTo⟩,
    ⟨"retrieve", "search", .alternativeTo⟩,
    ⟨"send", "constrain", .softRequires⟩]

/-- The checkpoint runs beside the mutation, so it does not count for it. -/
def workflow : AuthoredWorkflow where
  groups := [("fan", ⟨some "all", []⟩)]
  steps := [
    { capability := some "retrieve", label := some "r" },
    { capability := some "checkpoint", label := some "c", group := some "fan" },
    { capability := some "write", label := some "w", group := some "fan" },
    { capability := some "detect", label := some "d" },
    { capability := some "send", label := some "out" }]

def checker : Checker := { ontology := ontology }

def entry : CatalogEntry := .ofAuthored 10 "publish" workflow

end Publishing

theorem foretells_check_publishing :
    Publishing.entry.Loaded ∧ isHalting (Publishing.checker.check Publishing.entry).findings = false ∧
      ∃ w, Publishing.entry.graph = some w ∧ ∀ s ∈ w.steps,
        ∃ cap, Publishing.checker.ontology.get? s.capability = some cap ∧
          Publishing.checker.Foretells w (Publishing.checker.check Publishing.entry) s cap :=
  have he : Publishing.entry.Loaded := .authored 10 "publish" Publishing.workflow
  have h : isHalting (Publishing.checker.check Publishing.entry).findings = false :=
    (isHalting_findings_check he).trans (by decide +kernel)
  ⟨he, h, foretells_check Publishing.checker Publishing.entry he h⟩

end Checker

end CapabilityFlow
