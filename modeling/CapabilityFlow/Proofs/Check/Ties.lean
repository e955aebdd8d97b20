import CapabilityFlow.Proofs.Check.Mismatch
import CapabilityFlow.Proofs.Check.Pairs
import CapabilityFlow.Proofs.Patch.Suggestions
import Mathlib.Data.List.Sort

/-!
# Canonical reports

Findings are compared by level, step, field, code and message, and by nothing else. All the rest of a
finding follows from these (`Checker.Regular`): its severity and its suggestion from its code and its
step, the label from the place of the step, and the types of a mismatch from its message. So two findings
about a workflow that tie are equal, and the order in which findings are collected does not show in the
report (`Checker.check_canonical`).
-/

namespace CapabilityFlow

/-! ## The order of findings -/

theorem Code.rank_injective : Function.Injective Code.rank := by
  intro a b h
  have ha : a ∈ all := by cases a <;> decide
  exact (List.idxOf_inj ha).1 h

namespace Finding

theorem compareOption_eq {α : Type} [Ord α] : (compareOption : Option α → Option α → Ordering) = compare := by
  funext a b
  cases a <;> cases b <;> rfl

/-- Findings are compared by one key after another. -/
theorem order_eq : order =
    compareLex (compareOn (·.level.rank)) (compareLex (compareOn (·.location.index))
      (compareLex (compareOn (·.location.field))
        (compareLex (compareOn (·.code.rank)) (compareOn (·.message))))) := by
  funext f g
  unfold order
  rw [compareOption_eq, compareOption_eq]
  rfl

instance : Std.TransCmp order := by
  rw [order_eq]
  infer_instance

variable {f g : Finding} {fs gs : List Finding}

/-- Findings tie exactly when they have a code, a step, a field and a message in common. -/
theorem order_eq_eq_iff : f.order g = .eq ↔ f.code = g.code ∧ f.location.index = g.location.index ∧
    f.location.field = g.location.field ∧ f.message = g.message := by
  simp only [order_eq, compareLex, compareOn, Ordering.then_eq_eq, Std.compare_eq_iff_eq,
    Code.rank_injective.eq_iff]
  constructor
  · rintro ⟨-, hindex, hfield, hcode, hmessage⟩
    exact ⟨hcode, hindex, hfield, hmessage⟩
  · rintro ⟨hcode, hindex, hfield, hmessage⟩
    exact ⟨by rw [level, level, hcode], hindex, hfield, hcode, hmessage⟩

theorem pairwise_sort (fs : List Finding) : (sort fs).Pairwise fun f g => (f.order g).isLE = true := by
  refine List.pairwise_mergeSort (fun _ _ _ => Std.TransCmp.isLE_trans) (fun f g => ?_) fs
  have hswap : g.order f = (f.order g).swap := Std.OrientedCmp.eq_swap
  rw [hswap]
  cases f.order g <;> rfl

/-- Findings of which no two different ones tie are sorted to the same list from any order. -/
theorem sort_eq_of_perm (h : fs.Perm gs) (htie : ∀ f ∈ gs, ∀ g ∈ gs, f.order g = .eq → f = g) :
    sort fs = sort gs := by
  have hperm : (sort fs).Perm (sort gs) := (sort_perm fs).trans (h.trans (sort_perm gs).symm)
  refine hperm.eq_of_pairwise (fun f g hf hg hle hge => ?_) (pairwise_sort fs) (pairwise_sort gs)
  exact htie f (h.subset (mem_sort.1 hf)) g (mem_sort.1 hg) (Std.OrientedCmp.isLE_antisymm hle hge)

end Finding

/-! ## Places -/

/-- Places in a document differ by their steps. -/
theorem AuthoredWorkflow.HasPlace.eq_of_index_eq {w : AuthoredWorkflow} {name : String} {l l' : Location}
    (h : w.HasPlace name l) (h' : w.HasPlace name l') (hi : l.index = l'.index) : l = l' := by
  cases h with
  | whole =>
    cases h' with
    | whole => rfl
    | step _ => cases hi
  | @step i s hs =>
    cases h' with
    | whole => cases hi
    | @step j t ht =>
      obtain rfl : i = j := Option.some.inj hi
      obtain rfl : s = t := Option.some.inj (hs.symm.trans ht)
      rfl

namespace CatalogEntry

/-- A place in what is written for an entry. A malformed entry has no steps. -/
def HasPlace (e : CatalogEntry) (l : Location) : Prop :=
  (e.authored.getD {}).HasPlace e.name l

variable {e : CatalogEntry}

theorem hasPlace_whole : e.HasPlace { workflow := e.name } :=
  .whole

theorem hasPlace_step {a : AuthoredWorkflow} (ha : e.authored = some a) {i : Nat} {s : AuthoredStep}
    (hs : a.steps[i]? = some s) : e.HasPlace (s.location e.name i) := by
  unfold HasPlace
  rw [ha]
  exact .step hs

end CatalogEntry

namespace Checker

variable {c : Checker} {w : Workflow} {e : CatalogEntry} {f g : Finding} {s : Step}

/-- The steps of a graph are those of its document. -/
theorem hasPlace_location (he : e.Loaded) (h : isHalting (c.structureFindings e) = false)
    (hg : e.graph = some w) (hs : s ∈ w.steps) : e.HasPlace (w.location s) := by
  obtain ⟨cap, a, ha, hload, rfl⟩ := exists_authored he h hg
  obtain ⟨i, t, ht, rfl⟩ := AuthoredWorkflow.mem_steps_graph_iff.1 hs
  obtain ⟨label, hlabel⟩ :=
    (AuthoredWorkflow.readable_of_findings_eq_nil hload (List.mem_of_getElem? ht)).label
  have hplace : e.HasPlace (t.location e.name i) := CatalogEntry.hasPlace_step ha ht
  rw [AuthoredStep.location, hlabel] at hplace
  rw [Workflow.location, show (t.toStep i).label = label by simp [AuthoredStep.toStep, hlabel]]
  exact hplace

/-! ## What follows from code and place -/

/-- The severity of the findings of a code. -/
def severityOf (c : Checker) : Code → Severity
  | .incompatibleVersion => c.versionSeverity
  | .mutationWithoutCheckpoint =>
    if c.settings.strictCheckpoints then .error else Code.mutationWithoutCheckpoint.defaultSeverity
  | code => code.defaultSeverity

/-- What findings of a code suggest at the step of a label. -/
def suggestionAt (c : Checker) (e : CatalogEntry) (step : Option String) : Code → Option String
  | .mutationWithoutCheckpoint =>
    let label := step.getD ""
    some s!"Insert a '{c.suggestedCheckpoint}' step before '{label}'"
  | .sendWithoutSafeguard =>
    let label := step.getD ""
    some s!"Add a {c.safeguardChoice} step before '{label}'"
  | .understatedRisk =>
    e.graph.bind fun w => (c.riskFinding? w (c.policySteps w)).bind (·.suggestion)
  | _ => none

/-- All of a finding follows from its code, its place and its message, but for the types of a mismatch. -/
structure Regular (c : Checker) (e : CatalogEntry) (f : Finding) : Prop where
  place : ∃ l, e.HasPlace l ∧ ∃ field, f.location = { l with field := field }
  severity : f.severity = c.severityOf f.code
  suggestion : f.suggestion = c.suggestionAt e f.location.step f.code
  types : f.code ≠ .typeMismatch → f.types = none

theorem Regular.location_eq (hf : c.Regular e f) (hg : c.Regular e g)
    (hindex : f.location.index = g.location.index) (hfield : f.location.field = g.location.field) :
    f.location = g.location := by
  obtain ⟨l, hl, field, hf⟩ := hf.place
  obtain ⟨l', hl', field', hg⟩ := hg.place
  rw [hf, hg] at hindex hfield ⊢
  obtain rfl : l = l' := hl.eq_of_index_eq hl' hindex
  obtain rfl : field = field' := hfield
  rfl

theorem Regular.eq_of_order_eq (hf : c.Regular e f) (hg : c.Regular e g) (h : f.order g = .eq)
    (htypes : f.code = .typeMismatch → g.code = .typeMismatch → f.types = g.types) : f = g := by
  obtain ⟨hcode, hindex, hfield, hmessage⟩ := Finding.order_eq_eq_iff.1 h
  have hlocation := hf.location_eq hg hindex hfield
  have hseverity : f.severity = g.severity := by rw [hf.severity, hg.severity, hcode]
  have hsuggestion : f.suggestion = g.suggestion := by
    rw [hf.suggestion, hg.suggestion, hlocation, hcode]
  have htypes : f.types = g.types := by
    by_cases hm : f.code = .typeMismatch
    · exact htypes hm (hcode.symm.trans hm)
    · rw [hf.types hm, hg.types (hcode ▸ hm)]
  cases f
  cases g
  exact (Finding.mk.injEq ..).mpr ⟨hcode, hseverity, hlocation, hmessage, hsuggestion, htypes⟩

/-! ## Regular findings of the structure -/

theorem regular_of_isLocalError {l : Location} (hl : e.HasPlace l) (h : f.IsLocalError l) :
    c.Regular e f := by
  have hcodes : ∀ code ∈ Code.ofParts, c.severityOf code = code.defaultSeverity ∧
      ∀ label, c.suggestionAt e label code = none := by
    simp [Code.ofParts, severityOf, suggestionAt]
  obtain ⟨hseverity, hsuggestion⟩ := hcodes f.code h.code_mem
  refine ⟨⟨l, hl, h.location⟩, ?_, ?_, fun _ => ?_⟩
  · rw [hseverity, h.eq_of]
    rfl
  · rw [hsuggestion, h.eq_of]
    rfl
  · rw [h.eq_of]
    rfl

theorem regular_of_mem_findings (he : e.Loaded) (hf : f ∈ e.findings) : c.Regular e f := by
  rcases he.cases_authored with ⟨cap, a, ha⟩ | ⟨-, -, m, hm⟩
  · have hauthored : e.authored = some a := by rw [ha]; rfl
    have hmem : f ∈ a.findings cap e.name := by rw [ha] at hf; exact hf
    rcases a.isLocalError_or_mem_labelFindings hmem with ⟨l, hl, hlocal⟩ | hlabel
    · refine regular_of_isLocalError ?_ hlocal
      unfold CatalogEntry.HasPlace
      rw [hauthored]
      exact hl
    · obtain ⟨i, s, label, first, hs, hsl, -, -, rfl⟩ := a.mem_labelFindings_iff.1 hlabel
      have hplace : e.HasPlace (.atStep e.name i label) := by
        have hplace := CatalogEntry.hasPlace_step hauthored hs
        rwa [AuthoredStep.location, hsl] at hplace
      exact ⟨⟨_, hplace, none, rfl⟩, rfl, rfl, fun _ => rfl⟩
  · rw [hm] at hf
    obtain rfl := List.mem_singleton.1 hf
    exact ⟨⟨_, CatalogEntry.hasPlace_whole, none, rfl⟩, rfl, rfl, fun _ => rfl⟩

theorem regular_of_mem_capabilityFindings (hf : f ∈ c.capabilityFindings e) : c.Regular e f := by
  unfold capabilityFindings at hf
  cases ha : e.authored with
  | none => simp [ha] at hf
  | some a =>
    rw [ha] at hf
    obtain ⟨⟨t, i⟩, ht, hf⟩ := List.mem_filterMap.1 hf
    obtain ⟨id, -, hf⟩ := Option.bind_eq_some_iff.1 hf
    split at hf
    · cases hf
      have hplace : e.HasPlace (authoredLocation e.name i t) := by
        have hplace := CatalogEntry.hasPlace_step ha (List.mem_zipIdx_iff_getElem?.1 ht)
        cases hl : t.label <;>
          simpa [authoredLocation, AuthoredStep.location, Location.atStep, hl] using hplace
      exact ⟨⟨_, hplace, some "capability", rfl⟩, rfl, rfl, fun _ => rfl⟩
    · cases hf

theorem regular_of_versionFinding? (hf : c.versionFinding? e = some f) : c.Regular e f := by
  obtain ⟨a, -, h⟩ := Option.bind_eq_some_iff.1 hf
  obtain ⟨declared, -, h⟩ := Option.bind_eq_some_iff.1 h
  obtain ⟨fault, -, h⟩ := Option.bind_eq_some_iff.1 h
  cases h
  exact ⟨⟨_, CatalogEntry.hasPlace_whole, some "ontology_version", rfl⟩, rfl, rfl, fun _ => rfl⟩

theorem regular_of_mem_structureFindings (he : e.Loaded) (hf : f ∈ c.structureFindings e) :
    c.Regular e f := by
  simp only [structureFindings, List.mem_append] at hf
  rcases hf with (hf | hf) | hf
  · exact regular_of_mem_findings he hf
  · exact regular_of_mem_capabilityFindings hf
  · exact regular_of_versionFinding? (Option.mem_toList.1 hf)

/-! ## Regular findings of the graph -/

section

variable (hplace : ∀ s ∈ w.steps, e.HasPlace (w.location s))
include hplace

theorem regular_of_mem_predecessorFindings (hs : s ∈ w.steps) (hf : f ∈ c.predecessorFindings w s) :
    c.Regular e f := by
  have hl := hplace s hs
  unfold predecessorFindings at hf
  split at hf
  · cases hf
  · simp only [List.mem_append] at hf
    rcases hf with (hf | hf) | hf
    · obtain ⟨id, -, rfl⟩ := List.mem_map.1 hf
      exact ⟨⟨_, hl, none, rfl⟩, rfl, rfl, fun _ => rfl⟩
    · obtain ⟨id, -, rfl⟩ := List.mem_map.1 hf
      exact ⟨⟨_, hl, none, rfl⟩, rfl, rfl, fun _ => rfl⟩
    · unfold checkpointFindings at hf
      split at hf
      · obtain rfl := List.mem_singleton.1 hf
        exact ⟨⟨_, hl, none, rfl⟩, rfl, rfl, fun _ => rfl⟩
      · cases hf

theorem regular_of_mem_conflictFindings (hf : f ∈ c.conflictFindings w) : c.Regular e f := by
  obtain ⟨⟨later, j⟩, hlater, hf⟩ := List.mem_flatMap.1 hf
  obtain ⟨earlier, -, rfl⟩ := List.mem_map.1 hf
  have hmem : later ∈ w.steps := List.mem_of_getElem? (List.mem_zipIdx_iff_getElem?.1 hlater)
  exact ⟨⟨_, hplace later hmem, none, rfl⟩, rfl, rfl, fun _ => rfl⟩

theorem regular_of_mem_orderingFindings (hf : f ∈ c.orderingFindings w) : c.Regular e f := by
  obtain ⟨_, -, hf⟩ := List.mem_flatMap.1 hf
  obtain ⟨a, ha, hf⟩ := List.mem_flatMap.1 hf
  obtain ⟨b, hb, hf⟩ := List.mem_filterMap.1 hf
  have hat : (if b.index < a.index then a else b) ∈ w.steps := by
    split
    · exact (List.mem_filter.1 ha).1
    · exact (List.mem_filter.1 hb).1
  unfold orderFinding? at hf
  dsimp only at hf
  split at hf
  · cases hf
  · cases hf
    exact ⟨⟨_, hplace _ hat, none, rfl⟩, rfl, rfl, fun _ => rfl⟩

theorem regular_of_mem_relationFindings (hf : f ∈ c.relationFindings w) : c.Regular e f := by
  simp only [relationFindings, List.mem_append] at hf
  rcases hf with (hf | hf) | hf
  · obtain ⟨s, hs, hf⟩ := List.mem_flatMap.1 hf
    exact regular_of_mem_predecessorFindings hplace hs hf
  · exact regular_of_mem_conflictFindings hplace hf
  · exact regular_of_mem_orderingFindings hplace hf

omit hplace in
theorem regular_ofFault {l : Location} (hl : e.HasPlace l) (field : Option String)
    (fault : Reference × ReferenceFault) :
    c.Regular e (Finding.ofFault { l with field := field } fault) := by
  obtain ⟨r, fault⟩ := fault
  cases fault <;> exact ⟨⟨l, hl, field, rfl⟩, rfl, rfl, fun _ => rfl⟩

omit hplace in
theorem regular_of_mem_bindingFindings {scope : Scope} {cap : Capability} {l : Location}
    (hl : e.HasPlace l) {b : String × Binding} (hf : f ∈ scope.bindingFindings s cap l b) :
    c.Regular e f := by
  rcases List.mem_append.1 hf with hf | hf
  · unfold Scope.undeclaredFindings at hf
    split at hf
    · cases hf
    · obtain rfl := List.mem_singleton.1 hf
      exact ⟨⟨l, hl, some b.1, rfl⟩, rfl, rfl, fun _ => rfl⟩
  · split at hf
    · obtain ⟨fault, -, rfl⟩ := List.mem_map.1 hf
      exact regular_ofFault hl (some b.1) fault
    · split at hf
      · cases hf
      · obtain rfl := List.mem_singleton.1 hf
        exact ⟨⟨l, hl, some b.1, rfl⟩, rfl, rfl, fun hcode => absurd rfl hcode⟩
    · cases hf

omit hplace in
theorem regular_of_mem_expressionFindings {scope : Scope} {l : Location} (hl : e.HasPlace l)
    {field : String} {x : Expression} (hf : f ∈ scope.expressionFindings s (l.inField field) x) :
    c.Regular e f := by
  obtain ⟨fault, -, rfl⟩ := List.mem_map.1 hf
  exact regular_ofFault hl (some field) fault

theorem regular_of_mem_stepFindings {inputs : Except SchemaError Schema} (hs : s ∈ w.steps)
    (hf : f ∈ (c.scope w inputs).stepFindings s) : c.Regular e f := by
  have hl : e.HasPlace (.atStep (c.scope w inputs).workflow.name s.index s.label) := hplace s hs
  unfold Scope.stepFindings at hf
  split at hf
  · cases hf
  · simp only [List.mem_append] at hf
    rcases hf with ((hf | hf) | hf) | hf
    · obtain ⟨b, -, hf⟩ := List.mem_flatMap.1 hf
      exact regular_of_mem_bindingFindings hl hf
    · obtain ⟨field, -, rfl⟩ := List.mem_map.1 hf
      exact ⟨⟨_, hl, some field, rfl⟩, rfl, rfl, fun _ => rfl⟩
    · split at hf
      · exact regular_of_mem_expressionFindings hl hf
      · cases hf
    · obtain ⟨_, -, hf⟩ := List.mem_flatMap.1 hf
      exact regular_of_mem_expressionFindings hl hf

theorem regular_of_mem_safetyFindings (hs : s ∈ w.steps) (hf : f ∈ c.safetyFindings w s) :
    c.Regular e f := by
  have hl := hplace s hs
  unfold safetyFindings at hf
  split at hf
  · cases hf
  · rcases List.mem_append.1 hf with hf | hf
    · unfold sendFindings at hf
      split at hf
      · obtain rfl := List.mem_singleton.1 hf
        exact ⟨⟨_, hl, none, rfl⟩, rfl, rfl, fun _ => rfl⟩
      · cases hf
    · unfold approvalFindings at hf
      split at hf
      · obtain rfl := List.mem_singleton.1 hf
        exact ⟨⟨_, hl, none, rfl⟩, rfl, rfl, fun _ => rfl⟩
      · cases hf

theorem regular_of_riskFinding? (hg : e.graph = some w)
    (hf : c.riskFinding? w (c.policySteps w) = some f) : c.Regular e f := by
  obtain ⟨hcode, s, hs, hlocation⟩ := of_riskFinding?_eq_some hf
  have hsuggestion : c.suggestionAt e f.location.step .understatedRisk = f.suggestion := by
    simp [suggestionAt, hg, hf]
  have hl : e.HasPlace f.location := hlocation ▸ hplace s (mem_stepsExcept_iff.1 hs).1
  refine ⟨⟨_, hl, f.location.field, rfl⟩, ?_, by rw [hcode, hsuggestion], fun _ => ?_⟩
  all_goals
    obtain ⟨declared, -, hf⟩ := Option.bind_eq_some_iff.1 hf
    obtain ⟨first, -, hf⟩ := Option.bind_eq_some_iff.1 hf
    cases hf
    rfl

theorem regular_of_mem_graphFindings (hwhole : w.name = e.name) (hg : e.graph = some w)
    (hf : f ∈ c.graphFindings w) : c.Regular e f := by
  simp only [graphFindings_eq, contractFindings, policyFindings, List.mem_append] at hf
  rcases hf with (hf | hf | hf) | hf | hf
  · exact regular_of_mem_relationFindings hplace hf
  · cases hinputs : c.inputsType w with
    | ok t =>
      rw [hinputs] at hf
      cases hf
    | error cause =>
      rw [hinputs] at hf
      obtain rfl := List.mem_singleton.1 hf
      exact ⟨⟨_, CatalogEntry.hasPlace_whole, some "inputs", by rw [← hwhole]; rfl⟩, rfl, rfl,
        fun _ => rfl⟩
  · obtain ⟨s, hs, hf⟩ := List.mem_flatMap.1 hf
    exact regular_of_mem_stepFindings hplace (mem_stepsExcept_iff.1 hs).1 hf
  · obtain ⟨s, hs, hf⟩ := List.mem_flatMap.1 hf
    exact regular_of_mem_safetyFindings hplace (mem_stepsExcept_iff.1 hs).1 hf
  · exact regular_of_riskFinding? hplace hg (Option.mem_toList.1 hf)

end

/-! ## Reports without patches -/

/-- What is found about an entry, in the order in which it is collected. -/
def collected (c : Checker) (e : CatalogEntry) : List Finding :=
  c.structureFindings e ++
    match e.graph with
    | some w => if isHalting (c.structureFindings e) then [] else c.graphFindings w
    | none => []

/-- Without a registry, a report holds what is collected. -/
theorem check_withRegistry_none_eq (c : Checker) (e : CatalogEntry) :
    (c.withRegistry none).check e = .ofFindings e.name (c.collected e) [] := by
  cases hg : e.graph with
  | none => simp [check, collected, hg, structureFindings_withRegistry]
  | some w =>
    cases h : isHalting (c.structureFindings e) with
    | true => simp [check, collected, hg, h, structureFindings_withRegistry]
    | false =>
      rw [check_withRegistry_none h hg]
      simp [collected, hg, h]

theorem regular_of_mem_collected (he : e.Loaded) (hf : f ∈ c.collected e) : c.Regular e f := by
  rcases List.mem_append.1 hf with hf | hf
  · exact regular_of_mem_structureFindings he hf
  · cases hg : e.graph with
    | none => simp [hg] at hf
    | some w =>
      cases h : isHalting (c.structureFindings e) with
      | true => simp [hg, h] at hf
      | false =>
        have hwhole : w.name = e.name := by
          obtain ⟨cap, a, -, -, rfl⟩ := exists_authored he h hg
          rfl
        have hmem : f ∈ c.graphFindings w := by simpa [hg, h] using hf
        exact regular_of_mem_graphFindings (fun s hs => hasPlace_location he h hg hs) hwhole hg hmem

/-- Only a workflow that is checked beyond its structure has mismatches. -/
theorem exists_graph_of_mem_collected (he : e.Loaded) (hf : f ∈ c.collected e)
    (hcode : f.code = .typeMismatch) : isHalting (c.structureFindings e) = false ∧
      ∃ w, e.graph = some w ∧ c.collected e = c.structureFindings e ++ c.graphFindings w := by
  have hstructure : f ∉ c.structureFindings e := by
    intro hf
    have hlevel := c.level_of_mem_structureFindings he hf
    rw [Finding.level, hcode] at hlevel
    cases hlevel
  have hmem := (List.mem_append.1 hf).resolve_left hstructure
  unfold collected
  cases hg : e.graph with
  | none => simp [hg] at hmem
  | some w =>
    cases h : isHalting (c.structureFindings e) with
    | true => simp [hg, h] at hmem
    | false => exact ⟨rfl, w, rfl, rfl⟩

/-- The message of a mismatch tells the type that is found, where the input is known. -/
theorem found_of_message_mismatch {cap : Capability} {field : String} {found found' expected : Schema}
    {l l' : Location} (h : (Scope.mismatch cap field found expected l).message =
      (Scope.mismatch cap field found' expected l').message) : found.text = found'.text := by
  have hfound : (toString found.text).toList = (toString found'.text).toList := by
    simpa [Scope.mismatch, Finding.of, ← String.toList_inj] using h
  exact String.toList_inj.1 hfound

theorem types_eq_of_order_eq (he : e.Loaded) (hf : f ∈ c.collected e) (hg : g ∈ c.collected e)
    (h : f.order g = .eq) (hfcode : f.code = .typeMismatch) (hgcode : g.code = .typeMismatch) :
    f.types = g.types := by
  obtain ⟨hstructure, w, hw, hcollected⟩ := exists_graph_of_mem_collected he hf hfcode
  rw [hcollected] at hf hg
  have hwf := (wellFormed_scope he hstructure hw (c.inputsType w)).workflow
  obtain ⟨s, hs, cap, hcap, b, -, found, expected, -, hexpected, -, rfl⟩ :=
    exists_eq_mismatch he hstructure hw hf hfcode
  obtain ⟨t, ht, cap', hcap', b', -, found', expected', -, hexpected', -, rfl⟩ :=
    exists_eq_mismatch he hstructure hw hg hgcode
  obtain ⟨-, hindex, hfield, hmessage⟩ := Finding.order_eq_eq_iff.1 h
  obtain rfl : s = t := hwf.eq_of_index_eq hs ht (Option.some.inj hindex)
  obtain rfl : cap = cap' := Option.some.inj (hcap.symm.trans hcap')
  have hfield : b.1 = b'.1 := Option.some.inj hfield
  rw [← hfield] at hexpected' hmessage
  obtain rfl : expected = expected' := Option.some.inj (hexpected.symm.trans hexpected')
  have hfound : found.text = found'.text := found_of_message_mismatch hmessage
  simp only [Scope.mismatch, hfound]

/-- No two different findings about an entry tie. -/
theorem eq_of_mem_collected (he : e.Loaded) (hf : f ∈ c.collected e) (hg : g ∈ c.collected e)
    (h : f.order g = .eq) : f = g :=
  (regular_of_mem_collected he hf).eq_of_order_eq (regular_of_mem_collected he hg) h
    (types_eq_of_order_eq he hf hg h)

/-- Reports are canonical: findings are ordered in a consistent and transitive way, a report lists the
findings that it is made of in this order, and the findings about a workflow give one report, in
whatever order they are collected, as no two different ones of them tie. -/
theorem check_canonical (c : Checker) (e : CatalogEntry) (he : e.Loaded) :
    (∀ f g : Finding, (f.order g).swap = g.order f) ∧
    (∀ f g h : Finding, (f.order g).isLE = true → (g.order h).isLE = true →
      (f.order h).isLE = true) ∧
    (∀ name fs patches, (WorkflowReport.ofFindings name fs patches).findings.Perm fs ∧
      (WorkflowReport.ofFindings name fs patches).findings.Pairwise
        fun f g => (f.order g).isLE = true) ∧
    (∀ f ∈ ((c.withRegistry none).check e).findings, ∀ g ∈ ((c.withRegistry none).check e).findings,
      f.order g = .eq → f = g) ∧
    (∀ fs, fs.Perm (c.collected e) →
      WorkflowReport.ofFindings e.name fs [] = (c.withRegistry none).check e) := by
  have hties : ∀ f ∈ c.collected e, ∀ g ∈ c.collected e, f.order g = .eq → f = g :=
    fun f hf g hg h => eq_of_mem_collected he hf hg h
  have hmem : ∀ f, f ∈ ((c.withRegistry none).check e).findings ↔ f ∈ c.collected e := by
    intro f
    rw [check_withRegistry_none_eq]
    exact Finding.mem_sort
  refine ⟨fun f g => Std.OrientedCmp.eq_swap.symm, fun f g h => Std.TransCmp.isLE_trans,
    fun name fs patches => ⟨Finding.sort_perm fs, Finding.pairwise_sort fs⟩,
    fun f hf g hg => hties f ((hmem f).1 hf) g ((hmem g).1 hg), fun fs hperm => ?_⟩
  rw [check_withRegistry_none_eq, WorkflowReport.ofFindings, Finding.sort_eq_of_perm hperm hties]
  rfl

theorem check_canonical_publishing :
    Publishing.entry.Loaded ∧ 1 < (Publishing.checker.collected Publishing.entry).length ∧
      (∀ f g : Finding, (f.order g).swap = g.order f) ∧
      (∀ f g h : Finding, (f.order g).isLE = true → (g.order h).isLE = true →
        (f.order h).isLE = true) ∧
      (∀ name fs patches, (WorkflowReport.ofFindings name fs patches).findings.Perm fs ∧
        (WorkflowReport.ofFindings name fs patches).findings.Pairwise
          fun f g => (f.order g).isLE = true) ∧
      (∀ f ∈ ((Publishing.checker.withRegistry none).check Publishing.entry).findings,
        ∀ g ∈ ((Publishing.checker.withRegistry none).check Publishing.entry).findings,
          f.order g = .eq → f = g) ∧
      (∀ fs, fs.Perm (Publishing.checker.collected Publishing.entry) →
        WorkflowReport.ofFindings Publishing.entry.name fs [] =
          (Publishing.checker.withRegistry none).check Publishing.entry) :=
  have he : Publishing.entry.Loaded := .authored 10 "publish" Publishing.workflow
  ⟨he, by decide +kernel, check_canonical Publishing.checker Publishing.entry he⟩

end Checker

end CapabilityFlow
