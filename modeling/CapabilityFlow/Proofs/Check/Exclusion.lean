import CapabilityFlow.Check.Levels
import CapabilityFlow.Proofs.Workflow.Loading

/-!
# What is reported at each level

A report holds the structural findings and, unless one of them is an error, what the further levels
find. `check_levels` says which steps each level looks at: all of them for the edges, those without
an error of the edges for the contracts, and those without an error of either for the policies.

A patch changes nothing of a finding but its suggestion (`Finding.suggesting`), so levels, errors and
places of findings are the same before and after patches are made.
-/

namespace CapabilityFlow

/-! ## Errors at a step -/

/-- Whether a report has an error of a level at a step. -/
def WorkflowReport.hasErrorAt (r : WorkflowReport) (l : Level) (index : Nat) : Bool :=
  r.findings.any fun f => f.level = l && f.isError && f.location.index = some index

theorem WorkflowReport.hasErrorAt_iff {r : WorkflowReport} {l : Level} {index : Nat} :
    r.hasErrorAt l index = true ↔ ∃ f ∈ r.findings, f.level = l ∧ f.isError = true ∧
      f.location.index = some index := by
  simp [hasErrorAt, and_assoc]

namespace Finding

theorem mem_failedSteps_iff {fs : List Finding} {index : Nat} : index ∈ failedSteps fs ↔
    ∃ f ∈ fs, f.isError = true ∧ f.location.index = some index := by
  simp only [failedSteps, List.mem_filterMap]
  refine exists_congr fun f => and_congr_right fun _ => ?_
  cases f.isError <;> simp

/-- A finding with what a patch suggests, if there is one. -/
def suggesting (f : Finding) : Option Patch → Finding
  | some p => { f with suggestion := some p.summary }
  | none => f

@[simp] theorem code_suggesting (f : Finding) (p : Option Patch) : (f.suggesting p).code = f.code := by
  cases p <;> rfl

@[simp] theorem level_suggesting (f : Finding) (p : Option Patch) :
    (f.suggesting p).level = f.level := by
  cases p <;> rfl

@[simp] theorem isError_suggesting (f : Finding) (p : Option Patch) :
    (f.suggesting p).isError = f.isError := by
  cases p <;> rfl

@[simp] theorem location_suggesting (f : Finding) (p : Option Patch) :
    (f.suggesting p).location = f.location := by
  cases p <;> rfl

end Finding

/-! ## The levels of findings -/

namespace Scope

variable (s : Scope) (consumer : Step)

theorem level_ofFault (l : Location) (fault : Reference × ReferenceFault) :
    (Finding.ofFault l fault).level = .contracts := by
  obtain ⟨r, f⟩ := fault
  cases f <;> rfl

/-- What is said of a finding about a part of a step. -/
theorem of_mem_bindingFindings {c : Capability} {l : Location} {b : String × Binding} {f : Finding}
    (hf : f ∈ s.bindingFindings consumer c l b) :
    f.level = .contracts ∧ f.location = l.inField b.1 := by
  rcases List.mem_append.1 hf with h | h
  · unfold undeclaredFindings at h
    split at h
    · cases h
    · obtain rfl := List.mem_singleton.1 h
      exact ⟨rfl, rfl⟩
  · split at h
    · obtain ⟨fault, -, rfl⟩ := List.mem_map.1 h
      exact ⟨level_ofFault _ _, rfl⟩
    · split at h
      · cases h
      · obtain rfl := List.mem_singleton.1 h
        exact ⟨rfl, rfl⟩
    · cases h

theorem of_mem_missingFindings {c : Capability} {l : Location} {f : Finding}
    (hf : f ∈ missingFindings consumer c l) :
    f.level = .contracts ∧ ∃ field, f.location = l.inField field := by
  obtain ⟨field, -, rfl⟩ := List.mem_map.1 hf
  exact ⟨rfl, field, rfl⟩

theorem of_mem_expressionFindings {l : Location} {e : Expression} {f : Finding}
    (hf : f ∈ s.expressionFindings consumer l e) : f.level = .contracts ∧ f.location = l := by
  obtain ⟨fault, -, rfl⟩ := List.mem_map.1 hf
  exact ⟨level_ofFault _ _, rfl⟩

theorem of_mem_stepFindings {f : Finding} (hf : f ∈ s.stepFindings consumer) :
    f.level = .contracts ∧ f.location.index = some consumer.index := by
  unfold stepFindings at hf
  split at hf
  · cases hf
  · rename_i c _
    simp only [List.mem_append] at hf
    rcases hf with ((h | h) | h) | h
    · obtain ⟨b, -, h⟩ := List.mem_flatMap.1 h
      obtain ⟨hl, hp⟩ := s.of_mem_bindingFindings consumer h
      exact ⟨hl, hp ▸ rfl⟩
    · obtain ⟨hl, field, hp⟩ := of_mem_missingFindings consumer h
      exact ⟨hl, hp ▸ rfl⟩
    · split at h
      · obtain ⟨hl, hp⟩ := s.of_mem_expressionFindings consumer h
        exact ⟨hl, hp ▸ rfl⟩
      · cases h
    · obtain ⟨⟨g, i⟩, -, h⟩ := List.mem_flatMap.1 h
      obtain ⟨hl, hp⟩ := s.of_mem_expressionFindings consumer h
      exact ⟨hl, hp ▸ rfl⟩

end Scope

namespace Checker

/-! ## Findings by their codes -/

section

variable {c : Checker} {w : Workflow} {s : Step} {f : Finding}

theorem of_mem_requirementFindings (hf : f ∈ c.requirementFindings w s) :
    f.code = .requirementUnmet ∧ f.location = w.location s := by
  obtain ⟨id, -, rfl⟩ := List.mem_map.1 hf
  exact ⟨rfl, rfl⟩

theorem of_mem_softRequirementFindings (hf : f ∈ c.softRequirementFindings w s) :
    f.code = .softRequirementUnmet ∧ f.location = w.location s := by
  obtain ⟨id, -, rfl⟩ := List.mem_map.1 hf
  exact ⟨rfl, rfl⟩

theorem of_mem_checkpointFindings {cap : Capability} (hf : f ∈ c.checkpointFindings w s cap) :
    f.code = .mutationWithoutCheckpoint ∧ f.location = w.location s ∧
      (f.isError = true ↔ c.settings.strictCheckpoints = true) := by
  unfold checkpointFindings at hf
  split at hf
  · obtain rfl := List.mem_singleton.1 hf
    refine ⟨rfl, rfl, ?_⟩
    cases h : c.settings.strictCheckpoints <;> simp [Finding.isError, Code.defaultSeverity]
  · cases hf

theorem of_mem_predecessorFindings (hf : f ∈ c.predecessorFindings w s) :
    (f.code = .requirementUnmet ∨ f.code = .softRequirementUnmet ∨
      f.code = .mutationWithoutCheckpoint) ∧ f.location = w.location s := by
  unfold predecessorFindings at hf
  split at hf
  · cases hf
  · simp only [List.mem_append] at hf
    rcases hf with (h | h) | h
    · exact ⟨.inl (of_mem_requirementFindings h).1, (of_mem_requirementFindings h).2⟩
    · exact ⟨.inr (.inl (of_mem_softRequirementFindings h).1), (of_mem_softRequirementFindings h).2⟩
    · exact ⟨.inr (.inr (of_mem_checkpointFindings h).1), (of_mem_checkpointFindings h).2.1⟩

theorem code_of_mem_conflictFindings (hf : f ∈ c.conflictFindings w) :
    f.code = .conflictingCapabilities := by
  obtain ⟨⟨later, j⟩, -, h⟩ := List.mem_flatMap.1 hf
  obtain ⟨earlier, -, rfl⟩ := List.mem_map.1 h
  rfl

theorem code_of_mem_orderingFindings (hf : f ∈ c.orderingFindings w) :
    f.code = .orderingViolation := by
  obtain ⟨⟨first, second⟩, -, h⟩ := List.mem_flatMap.1 hf
  obtain ⟨a, -, h⟩ := List.mem_flatMap.1 h
  obtain ⟨b, -, h⟩ := List.mem_filterMap.1 h
  unfold orderFinding? at h
  dsimp only at h
  split at h
  · cases h
  · cases h
    rfl

theorem of_mem_sendFindings (hf : f ∈ c.sendFindings w s) :
    f.code = .sendWithoutSafeguard ∧ f.location = w.location s := by
  unfold sendFindings at hf
  split at hf
  · obtain rfl := List.mem_singleton.1 hf
    exact ⟨rfl, rfl⟩
  · cases hf

theorem of_mem_approvalFindings {cap : Capability} (hf : f ∈ approvalFindings w s cap) :
    f.code = .approvalWithoutGate ∧ f.location = w.location s := by
  unfold approvalFindings at hf
  split at hf
  · obtain rfl := List.mem_singleton.1 hf
    exact ⟨rfl, rfl⟩
  · cases hf

theorem of_mem_safetyFindings (hf : f ∈ c.safetyFindings w s) :
    f.level = .policy ∧ f.location = w.location s := by
  unfold safetyFindings at hf
  split at hf
  · cases hf
  · rcases List.mem_append.1 hf with h | h
    · exact ⟨congrArg Code.level (of_mem_sendFindings h).1, (of_mem_sendFindings h).2⟩
    · exact ⟨congrArg Code.level (of_mem_approvalFindings h).1, (of_mem_approvalFindings h).2⟩

theorem of_riskFinding?_eq_some {steps : List Step} (hf : c.riskFinding? w steps = some f) :
    f.code = .understatedRisk ∧ ∃ s ∈ steps, f.location = w.location s := by
  obtain ⟨declared, -, h⟩ := Option.bind_eq_some_iff.1 hf
  obtain ⟨⟨s, risk⟩, hfind, h⟩ := Option.bind_eq_some_iff.1 h
  obtain ⟨t, ht, hr⟩ := List.mem_filterMap.1 (List.mem_of_find?_eq_some hfind)
  obtain ⟨_, -, hr⟩ := Option.map_eq_some_iff.1 hr
  obtain ⟨rfl, -⟩ := Prod.mk.inj hr
  cases h
  exact ⟨rfl, t, ht, rfl⟩

end

variable (c : Checker) (w : Workflow)

theorem level_of_mem_inputsFindings {inputs : Except SchemaError Schema} {f : Finding}
    (hf : f ∈ inputsFindings w inputs) : f.level = .contracts ∧ f.location.index = none := by
  cases inputs with
  | ok s => cases hf
  | error e =>
    obtain rfl := List.mem_singleton.1 hf
    exact ⟨rfl, rfl⟩

theorem of_mem_contractFindings {steps : List Step} {f : Finding}
    (hf : f ∈ c.contractFindings w steps) :
    f.level = .contracts ∧ ∀ index, f.location.index = some index → ∃ s ∈ steps, s.index = index := by
  rcases List.mem_append.1 hf with h | h
  · obtain ⟨hl, hp⟩ := level_of_mem_inputsFindings w h
    exact ⟨hl, fun index hi => by simp [hp] at hi⟩
  · obtain ⟨s, hs, h⟩ := List.mem_flatMap.1 h
    obtain ⟨hl, hp⟩ := Scope.of_mem_stepFindings _ s h
    exact ⟨hl, fun index hi => ⟨s, hs, Option.some.inj (hp.symm.trans hi)⟩⟩

theorem level_of_mem_relationFindings {f : Finding} (hf : f ∈ c.relationFindings w) :
    f.level = .edges := by
  simp only [relationFindings, List.mem_append] at hf
  rcases hf with (h | h) | h
  · obtain ⟨s, -, h⟩ := List.mem_flatMap.1 h
    rcases (of_mem_predecessorFindings h).1 with hcode | hcode | hcode
    all_goals exact congrArg Code.level hcode
  · exact congrArg Code.level (code_of_mem_conflictFindings h)
  · exact congrArg Code.level (code_of_mem_orderingFindings h)

theorem of_mem_policyFindings {steps : List Step} {f : Finding}
    (hf : f ∈ c.policyFindings w steps) :
    f.level = .policy ∧ ∃ s ∈ steps, f.location.index = some s.index := by
  rcases List.mem_append.1 hf with h | h
  · obtain ⟨s, hs, h⟩ := List.mem_flatMap.1 h
    obtain ⟨hl, hp⟩ := of_mem_safetyFindings h
    exact ⟨hl, s, hs, hp ▸ rfl⟩
  · obtain ⟨hcode, s, hs, hp⟩ := of_riskFinding?_eq_some (Option.mem_toList.1 h)
    exact ⟨congrArg Code.level hcode, s, hs, hp ▸ rfl⟩

theorem level_of_versionFinding?_eq_some {e : CatalogEntry} {f : Finding}
    (hf : c.versionFinding? e = some f) : f.level = .structural := by
  obtain ⟨a, -, h⟩ := Option.bind_eq_some_iff.1 hf
  obtain ⟨declared, -, h⟩ := Option.bind_eq_some_iff.1 h
  obtain ⟨fault, -, h⟩ := Option.bind_eq_some_iff.1 h
  cases h
  rfl

theorem level_of_mem_structureFindings {e : CatalogEntry} (he : e.Loaded) {f : Finding}
    (hf : f ∈ c.structureFindings e) : f.level = .structural := by
  simp only [structureFindings, List.mem_append] at hf
  rcases hf with (h | h) | h
  · exact (he.isStructuralError f h).1
  · obtain ⟨⟨s, i⟩, -, h⟩ := List.mem_filterMap.1 h
    obtain ⟨id, -, h⟩ := Option.bind_eq_some_iff.1 h
    split at h
    · cases h
      rfl
    · cases h
  · exact c.level_of_versionFinding?_eq_some (Option.mem_toList.1 h)

section

variable {c} {c' : Checker} {e : CatalogEntry}

theorem capabilityFindings_congr (hontology : c'.ontology = c.ontology) :
    c'.capabilityFindings e = c.capabilityFindings e := by
  unfold capabilityFindings
  rw [hontology]

theorem versionFault?_congr (hontology : c'.ontology = c.ontology) {declared : String} :
    c'.versionFault? declared = c.versionFault? declared := by
  unfold versionFault?
  rw [hontology]

theorem structureFindings_congr (hontology : c'.ontology = c.ontology)
    (hrule : c'.settings.versionRule = c.settings.versionRule) :
    c'.structureFindings e = c.structureFindings e := by
  unfold structureFindings versionFinding? versionSeverity
  rw [capabilityFindings_congr hontology, hrule]
  simp only [versionFault?_congr hontology]

end

/-! ## Patches -/

/-- The patch for a finding, where a registry is given. -/
def patchOf (e : CatalogEntry) (f : Finding) : Option Patch :=
  match c.registry, e.authored with
  | some r, some authored => (repaired r authored w f).2
  | _, _ => none

theorem repaired_fst (r : CoercionRegistry) (authored : AuthoredWorkflow) (f : Finding) :
    (repaired r authored w f).1 = f.suggesting (repaired r authored w f).2 := by
  unfold repaired
  split <;> rfl

theorem repairs_eq (e : CatalogEntry) (fs : List Finding) :
    c.repairs e w fs =
      (fs.map fun f => f.suggesting (c.patchOf w e f), fs.filterMap (c.patchOf w e)) := by
  unfold repairs
  split
  · rename_i r authored hr ha
    simp only [patchOf, hr, ha, List.map_map, List.filterMap_map, Prod.mk.injEq]
    exact ⟨List.map_congr_left fun f _ => repaired_fst w r authored f,
      List.filterMap_congr fun f _ => by simp [patchOf, hr, ha]⟩
  · rename_i h
    have hnone : ∀ f, c.patchOf w e f = none := by
      intro f
      unfold patchOf
      split
      · rename_i hr ha
        exact absurd ha (h _ _ hr)
      · rfl
    simp [hnone, Finding.suggesting]

theorem patchOf_eq_none_of_code_ne {e : CatalogEntry} {f : Finding} (hf : f.code ≠ .typeMismatch) :
    c.patchOf w e f = none := by
  unfold patchOf
  split
  · simp [repaired, CoercionRegistry.patchFor, hf]
  · rfl

theorem code_of_patchOf_eq_some {e : CatalogEntry} {f : Finding} {p : Patch}
    (h : c.patchOf w e f = some p) : f.code = .typeMismatch := by
  by_contra hne
  rw [c.patchOf_eq_none_of_code_ne w hne] at h
  cases h

/-! ## Reports -/

variable {c w} {e : CatalogEntry}

theorem check_of_isHalting (h : isHalting (c.structureFindings e) = true) :
    c.check e = .ofFindings e.name (c.structureFindings e) [] := by
  unfold check
  cases e.graph <;> simp [h]

theorem findings_eq_nil_of_not_isHalting (he : e.Loaded)
    (h : isHalting (c.structureFindings e) = false) : e.findings = [] := by
  rw [List.eq_nil_iff_forall_not_mem]
  intro f hf
  obtain ⟨hl, herr⟩ := he.isStructuralError f hf
  have hmem : f ∈ c.structureFindings e := by
    simp only [structureFindings, List.mem_append]
    exact .inl (.inl hf)
  simpa [hl, herr] using List.any_eq_false.1 h f hmem

/-- A workflow that is checked beyond its structure has a graph. -/
theorem exists_graph (he : e.Loaded) (h : isHalting (c.structureFindings e) = false) :
    ∃ w, e.graph = some w := by
  obtain ⟨cap, a, -, -, -, hw⟩ := he.of_findings_eq_nil (findings_eq_nil_of_not_isHalting he h)
  exact ⟨_, hw⟩

/-- The workflow that is checked beyond its structure is the graph of a document in which nothing is
amiss. -/
theorem exists_authored (he : e.Loaded) (h : isHalting (c.structureFindings e) = false)
    (hw : e.graph = some w) :
    ∃ cap a, e.authored = some a ∧ a.findings cap e.name = [] ∧ a.graph e.name = w := by
  obtain ⟨cap, a, -, hload, ha, hg⟩ := he.of_findings_eq_nil (findings_eq_nil_of_not_isHalting he h)
  exact ⟨cap, a, ha, hload, Option.some.inj (hg.symm.trans hw)⟩

theorem check_of_not_isHalting (h : isHalting (c.structureFindings e) = false)
    (hw : e.graph = some w) :
    c.check e = .ofFindings e.name
      ((c.structureFindings e ++ c.graphFindings w).map fun f => f.suggesting (c.patchOf w e f))
      ((c.structureFindings e ++ c.graphFindings w).filterMap (c.patchOf w e)) := by
  simp [check, hw, h, repairs_eq]

/-! ## The findings of a level -/

/-- The steps whose contracts are checked. -/
def contractSteps (c : Checker) (w : Workflow) : List Step :=
  w.stepsExcept (Finding.failedSteps (c.relationFindings w))

/-- The steps whose policies are checked. -/
def policySteps (c : Checker) (w : Workflow) : List Step :=
  w.stepsExcept (Finding.failedSteps (c.relationFindings w) ++
    Finding.failedSteps (c.contractFindings w (c.contractSteps w)))

/-- What a check finds at a level of a workflow without structural errors. -/
def levelFindings (c : Checker) (w : Workflow) (e : CatalogEntry) : Level → List Finding
  | .structural => c.structureFindings e
  | .edges => c.relationFindings w
  | .contracts => c.contractFindings w (c.contractSteps w)
  | .policy => c.policyFindings w (c.policySteps w)

theorem graphFindings_eq : c.graphFindings w = c.relationFindings w ++
    c.contractFindings w (c.contractSteps w) ++ c.policyFindings w (c.policySteps w) :=
  rfl

/-- Findings with one key, such as a level or a code, are all kept by a filter of it, or none is. -/
theorem filter_key_of_forall {κ : Type} [DecidableEq κ] {key : Finding → κ} {fs : List Finding} {k' : κ}
    (h : ∀ f ∈ fs, key f = k') (k : κ) :
    fs.filter (key · = k) = if k' = k then fs else [] := by
  split
  · rename_i hk
    exact List.filter_eq_self.2 fun f hf => by simp [h f hf, hk]
  · rename_i hk
    exact List.filter_eq_nil_iff.2 fun f hf => by simp [h f hf, hk]

theorem filter_level_findings (he : e.Loaded) (l : Level) :
    (c.structureFindings e ++ c.graphFindings w).filter (·.level = l) = c.levelFindings w e l := by
  have h₁ : ∀ f ∈ c.structureFindings e, f.level = .structural :=
    fun f hf => c.level_of_mem_structureFindings he hf
  have h₂ : ∀ f ∈ c.relationFindings w, f.level = .edges :=
    fun f hf => c.level_of_mem_relationFindings w hf
  have h₃ : ∀ f ∈ c.contractFindings w (c.contractSteps w), f.level = .contracts :=
    fun f hf => (c.of_mem_contractFindings w hf).1
  have h₄ : ∀ f ∈ c.policyFindings w (c.policySteps w), f.level = .policy :=
    fun f hf => (c.of_mem_policyFindings w hf).1
  rw [graphFindings_eq, List.filter_append, List.filter_append, List.filter_append,
    filter_key_of_forall h₁, filter_key_of_forall h₂, filter_key_of_forall h₃,
    filter_key_of_forall h₄]
  cases l <;> simp [levelFindings]

theorem perm_atLevel_check (he : e.Loaded) (h : isHalting (c.structureFindings e) = false)
    (hw : e.graph = some w) (l : Level) : ((c.check e).atLevel l).Perm
      ((c.levelFindings w e l).map fun f => f.suggesting (c.patchOf w e f)) := by
  rw [check_of_not_isHalting h hw]
  refine ((Finding.sort_perm _).filter _).trans (List.Perm.of_eq ?_)
  rw [List.filter_map, ← filter_level_findings he]
  congr 1
  exact List.filter_congr fun f _ => by simp

theorem exists_of_mem_findings_check (he : e.Loaded) (h : isHalting (c.structureFindings e) = false)
    (hw : e.graph = some w) {f : Finding} (hf : f ∈ (c.check e).findings) :
    ∃ g ∈ c.levelFindings w e f.level, f = g.suggesting (c.patchOf w e g) := by
  have hmem : f ∈ (c.check e).atLevel f.level := List.mem_filter.2 ⟨hf, by simp⟩
  obtain ⟨g, hg, rfl⟩ := List.mem_map.1 ((perm_atLevel_check he h hw _).mem_iff.1 hmem)
  exact ⟨g, by simpa using hg, rfl⟩

/-- A finding of a report is structural, or a level of the graph finds it. -/
theorem level_eq_structural_or_exists (he : e.Loaded) {f : Finding} (hf : f ∈ (c.check e).findings) :
    f.level = .structural ∨ isHalting (c.structureFindings e) = false ∧ ∃ w, e.graph = some w ∧
      ∃ g ∈ c.levelFindings w e f.level, f = g.suggesting (c.patchOf w e g) := by
  cases h : isHalting (c.structureFindings e) with
  | true =>
    rw [check_of_isHalting h] at hf
    exact .inl (c.level_of_mem_structureFindings he (Finding.mem_sort.1 hf))
  | false =>
    obtain ⟨w, hw⟩ := exists_graph he h
    exact .inr ⟨rfl, w, hw, exists_of_mem_findings_check he h hw hf⟩

theorem hasErrorAt_check_iff (he : e.Loaded) (h : isHalting (c.structureFindings e) = false)
    (hw : e.graph = some w) {l : Level} {index : Nat} : (c.check e).hasErrorAt l index = true ↔
      index ∈ Finding.failedSteps (c.levelFindings w e l) := by
  have hp := perm_atLevel_check he h hw l
  have hiff : (c.check e).hasErrorAt l index = true ↔
      ∃ f ∈ (c.check e).atLevel l, f.isError = true ∧ f.location.index = some index := by
    simp only [WorkflowReport.hasErrorAt_iff, WorkflowReport.atLevel, List.mem_filter,
      decide_eq_true_eq, and_assoc]
  simp only [hiff, hp.mem_iff, List.mem_map, Finding.mem_failedSteps_iff, exists_exists_and_eq_and,
    Finding.isError_suggesting, Finding.location_suggesting]

theorem mem_stepsExcept_iff {places : List Nat} {s : Step} :
    s ∈ w.stepsExcept places ↔ s ∈ w.steps ∧ s.index ∉ places := by
  simp [Workflow.stepsExcept]

theorem contractSteps_eq (he : e.Loaded) (h : isHalting (c.structureFindings e) = false)
    (hw : e.graph = some w) : c.contractSteps w =
      w.steps.filter fun s => !(c.check e).hasErrorAt .edges s.index := by
  refine List.filter_congr fun s _ => ?_
  rw [Bool.not_inj_iff, Bool.eq_iff_iff, List.contains_iff_mem, hasErrorAt_check_iff he h hw]
  rfl

theorem policySteps_eq (he : e.Loaded) (h : isHalting (c.structureFindings e) = false)
    (hw : e.graph = some w) : c.policySteps w =
      w.steps.filter fun s => !(c.check e).hasErrorAt .edges s.index &&
        !(c.check e).hasErrorAt .contracts s.index := by
  refine List.filter_congr fun s _ => ?_
  rw [← Bool.not_or, Bool.not_inj_iff, Bool.eq_iff_iff, List.contains_iff_mem, Bool.or_eq_true,
    hasErrorAt_check_iff he h hw, hasErrorAt_check_iff he h hw, List.mem_append]
  rfl

/-- Nothing is found at a step above a level at which it has an error. -/
theorem index_ne_of_hasErrorAt (he : e.Loaded) (h : isHalting (c.structureFindings e) = false)
    (hw : e.graph = some w) {l : Level} {index : Nat} (hl : Level.edges.rank ≤ l.rank)
    (herr : (c.check e).hasErrorAt l index = true) {f : Finding} (hf : f ∈ (c.check e).findings)
    (hrank : l.rank < f.level.rank) : f.location.index ≠ some index := by
  intro hi
  obtain ⟨g, hg, rfl⟩ := exists_of_mem_findings_check he h hw hf
  rw [Finding.location_suggesting] at hi
  rw [Finding.level_suggesting] at hg hrank
  rw [hasErrorAt_check_iff he h hw] at herr
  cases hg' : g.level <;> rw [hg'] at hg hrank <;> cases l <;> simp only [Level.rank] at hl hrank <;>
    try omega
  · obtain ⟨s, hs, rfl⟩ := (c.of_mem_contractFindings w hg).2 index hi
    exact (mem_stepsExcept_iff.1 hs).2 herr
  · obtain ⟨s, hs, hsi⟩ := (c.of_mem_policyFindings w hg).2
    obtain rfl := Option.some.inj (hsi.symm.trans hi)
    exact (mem_stepsExcept_iff.1 hs).2 (List.mem_append_left _ herr)
  · obtain ⟨s, hs, hsi⟩ := (c.of_mem_policyFindings w hg).2
    obtain rfl := Option.some.inj (hsi.symm.trans hi)
    exact (mem_stepsExcept_iff.1 hs).2 (List.mem_append_right _ herr)

/-! ## Reports level by level -/

/-- What a report says of a workflow without structural errors. Each level looks at the steps
without an error at a level below it, and a finding with a patch suggests the patch. -/
structure Covers (c : Checker) (e : CatalogEntry) (w : Workflow) (r : WorkflowReport) : Prop where
  structural : (r.atLevel .structural).Perm (c.structureFindings e)
  edges : (r.atLevel .edges).Perm (c.relationFindings w)
  contracts : (r.atLevel .contracts).Perm
    ((inputsFindings w (c.inputsType w) ++
        (w.steps.filter fun s => !r.hasErrorAt .edges s.index).flatMap
          (c.scope w (c.inputsType w)).stepFindings).map
      fun f => f.suggesting (c.patchOf w e f))
  policy : (r.atLevel .policy).Perm
    (c.policyFindings w <| w.steps.filter fun s =>
      !r.hasErrorAt .edges s.index && !r.hasErrorAt .contracts s.index)
  excluded : ∀ l index, Level.edges.rank ≤ l.rank → r.hasErrorAt l index = true →
    ∀ f ∈ r.findings, l.rank < f.level.rank → f.location.index ≠ some index

/-- Only findings about contracts are given patches. -/
theorem perm_levelFindings (he : e.Loaded) (h : isHalting (c.structureFindings e) = false)
    (hw : e.graph = some w) {l : Level} (hl : l ≠ .contracts) :
    ((c.check e).atLevel l).Perm (c.levelFindings w e l) := by
  refine (perm_atLevel_check he h hw l).trans (List.Perm.of_eq ?_)
  refine (List.map_congr_left fun f hf => ?_).trans (List.map_id _)
  have hlevel : f.level = l := by
    rw [← filter_level_findings he] at hf
    simpa using (List.mem_filter.1 hf).2
  have hcode : f.code ≠ .typeMismatch := by
    intro hc
    rw [← hlevel, Finding.level, hc] at hl
    exact hl rfl
  rw [c.patchOf_eq_none_of_code_ne w hcode]
  rfl

theorem covers_check (he : e.Loaded) (h : isHalting (c.structureFindings e) = false)
    (hw : e.graph = some w) : c.Covers e w (c.check e) where
  structural := perm_levelFindings he h hw (by decide)
  edges := perm_levelFindings he h hw (by decide)
  contracts := by
    rw [← contractSteps_eq he h hw]
    exact perm_atLevel_check he h hw .contracts
  policy := by
    rw [← policySteps_eq he h hw]
    exact perm_levelFindings he h hw (by decide)
  excluded := fun _ _ hl herr _ hf => index_ne_of_hasErrorAt he h hw hl herr hf

/-- A structural error ends the check. Without one, a report covers the graph of the workflow. -/
theorem check_levels (c : Checker) (e : CatalogEntry) (he : e.Loaded) :
    (isHalting (c.structureFindings e) = true →
      (∀ f ∈ (c.check e).findings, f.level = .structural) ∧
        (c.check e).findings.Perm (c.structureFindings e) ∧ (c.check e).patches = []) ∧
    (isHalting (c.structureFindings e) = false →
      ∃ w, e.graph = some w ∧ c.Covers e w (c.check e)) := by
  constructor
  · intro h
    have hp : (c.check e).findings.Perm (c.structureFindings e) := by
      rw [check_of_isHalting h]
      exact Finding.sort_perm _
    refine ⟨fun f hf => c.level_of_mem_structureFindings he (hp.mem_iff.1 hf), hp, ?_⟩
    rw [check_of_isHalting h]
    rfl
  · intro h
    obtain ⟨cap, a, -, -, -, hg⟩ := he.of_findings_eq_nil (findings_eq_nil_of_not_isHalting he h)
    exact ⟨a.graph e.name, hg, covers_check he h hg⟩

namespace Sample

/-- A capability of which only the input and the output count. -/
def capability (id : String) (input output : Schema) : Capability where
  id := id
  layer := .execute
  risk := .low
  mutation := false
  requiresApproval := false
  description := ""
  inputDeclared := .null
  outputDeclared := .null
  input := input
  output := output

/-- `count` yields an integer, `show` takes a text, and `print` makes texts. -/
def ontology : Ontology where
  version := ⟨1, 0, 0, "", ""⟩
  capabilities := [
    capability "count" .anyObject (.object [("n", .scalar .integer)] [] false),
    capability "print" .anyObject (.object [("text", .scalar .string)] [] false),
    capability "show" (.object [("text", .scalar .string)] ["text"] false) .anyObject]
  edges := []

/-- `print` turns integers into texts. -/
def registry : CoercionRegistry :=
  ⟨[(("integer", "string"),
    ⟨.scalar .integer, .scalar .string, "print", "source", "text", [], ""⟩)]⟩

/-- Shows what is counted. -/
def workflow : AuthoredWorkflow where
  steps := [
    { capability := some "count", label := some "c" },
    { capability := some "show", label := some "v"
      bindings := [("text", .str (spanText "c.n"))] }]

def checker : Checker := { ontology := ontology, registry := some registry }

def entry : CatalogEntry := .ofAuthored 10 "w" workflow

end Sample

theorem check_levels_sample : Sample.entry.Loaded ∧
    ∃ w, Sample.entry.graph = some w ∧
      Sample.checker.Covers Sample.entry w (Sample.checker.check Sample.entry) :=
  have he : Sample.entry.Loaded := .authored 10 "w" Sample.workflow
  ⟨he, (check_levels Sample.checker Sample.entry he).2 (by decide +kernel)⟩

/-- The findings of a report are not those of its steps as they are: one has the suggestion of a
patch. -/
theorem not_perm_stepFindings : ¬ ∀ (c : Checker) (e : CatalogEntry) (w : Workflow), e.Loaded →
    isHalting (c.structureFindings e) = false → e.graph = some w →
      ((c.check e).atLevel .contracts).Perm
        (inputsFindings w (c.inputsType w) ++
          (w.steps.filter fun s => !(c.check e).hasErrorAt .edges s.index).flatMap
            (c.scope w (c.inputsType w)).stepFindings) := by
  intro h
  have hp := h Sample.checker Sample.entry (Sample.workflow.graph "w")
    (.authored 10 "w" Sample.workflow) (by decide +kernel) (by decide +kernel)
  revert hp
  decide +kernel

end Checker

end CapabilityFlow
