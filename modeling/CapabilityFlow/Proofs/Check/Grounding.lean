import CapabilityFlow.Proofs.Check.Predecessors

/-!
# Steps that are looked at

The rules of the levels above the structure pass over a step whose capability is unknown, take what an
unknown producer yields for anything, and look at no more steps than there are before a step. Once
the structure has no error, none of this happens (`Checker.grounded_of_not_isHalting`): each step of the
graph, and each step that a reference names, has a known capability and stands at its index.
-/

namespace CapabilityFlow

namespace Scope

variable {s : Scope} {consumer : Step} {cap : Capability}

/-- What is found at a step of a known capability is found in its parts. -/
theorem stepFindings_of_get? (h : s.ontology.get? consumer.capability = some cap) :
    s.stepFindings consumer =
      consumer.bindings.flatMap (s.bindingFindings consumer cap (s.workflow.location consumer)) ++
        missingFindings consumer cap (s.workflow.location consumer) ++
        consumer.condition.toList.flatMap
          (s.expressionFindings consumer ((s.workflow.location consumer).inField "condition")) ++
        consumer.gates.zipIdx.flatMap fun (g, i) =>
          s.expressionFindings consumer ((s.workflow.location consumer).inField s!"gates[{i}]")
            g.condition := by
  unfold stepFindings
  rw [h]
  cases consumer.condition with
  | none => rfl
  | some e => simp [Workflow.location]

/-- A reference to a step of a known capability reads the output of that capability. -/
theorem producerOutput_of_producer {r : Reference} {p : Step} (hr : r.producer ≠ s.inputNamespace)
    (hp : s.producer consumer r = .ok p) (hcap : s.ontology.get? p.capability = some cap) :
    s.producerOutput consumer r = .ok cap.output := by
  unfold producerOutput
  rw [if_neg hr, hp]
  simp only [bind, Except.bind, hcap]
  rfl

end Scope

namespace Checker

/-- A step has a capability that the ontology knows, and stands at its index. Each rule for single steps
then looks at it. -/
structure Grounded (c : Checker) (w : Workflow) (s : Step) (cap : Capability) : Prop where
  known : c.ontology.get? s.capability = some cap
  placed : w.steps[s.index]? = some s
  /-- There are as many steps before it as its index says. -/
  before : (w.steps.take s.index).length = s.index
  predecessors : c.predecessorFindings w s =
    c.requirementFindings w s ++ c.softRequirementFindings w s ++ c.checkpointFindings w s cap
  contracts : ∀ inputs, (c.scope w inputs).stepFindings s =
    s.bindings.flatMap ((c.scope w inputs).bindingFindings s cap (w.location s)) ++
      Scope.missingFindings s cap (w.location s) ++
      s.condition.toList.flatMap
        ((c.scope w inputs).expressionFindings s ((w.location s).inField "condition")) ++
      s.gates.zipIdx.flatMap fun (g, i) =>
        (c.scope w inputs).expressionFindings s ((w.location s).inField s!"gates[{i}]") g.condition
  safety : c.safetyFindings w s = c.sendFindings w s ++ approvalFindings w s cap
  risk : c.stepRisk? s = some cap.risk

variable {c : Checker} {w : Workflow} {s : Step} {cap : Capability}

theorem Grounded.of_known (hw : w.WellFormed) (hs : s ∈ w.steps)
    (hcap : c.ontology.get? s.capability = some cap) : c.Grounded w s cap where
  known := hcap
  placed := hw.getElem?_index hs
  before := List.length_take_of_le (Nat.le_of_lt (hw.index_lt_length hs))
  predecessors := by
    unfold predecessorFindings
    rw [hcap]
  contracts := fun inputs => Scope.stepFindings_of_get? (s := c.scope w inputs) hcap
  safety := by
    unfold safetyFindings
    rw [hcap]
  risk := by
    unfold stepRisk?
    rw [hcap]
    rfl

/-- No step escapes the rules: where no structural error ends the check, every step of the graph is
grounded, and so is every step that a reference names; what that one yields is the output of its
capability. -/
theorem grounded_of_not_isHalting (c : Checker) (e : CatalogEntry) (he : e.Loaded)
    (h : isHalting (c.structureFindings e) = false) :
    ∃ w, e.graph = some w ∧ (∀ s ∈ w.steps, ∃ cap, c.Grounded w s cap) ∧
      ∀ inputs consumer r p, (c.scope w inputs).producer consumer r = .ok p →
        p ∈ w.steps ∧ p.label = r.producer ∧ ∃ cap, c.Grounded w p cap ∧
          (r.producer ≠ c.settings.inputNamespace →
            (c.scope w inputs).producerOutput consumer r = .ok cap.output) := by
  obtain ⟨w, hg⟩ := exists_graph he h
  have hscope : ∀ inputs, (c.scope w inputs).WellFormed := wellFormed_scope he h hg
  have hw : w.WellFormed := (hscope (c.inputsType w)).workflow
  refine ⟨w, hg, fun s hs => ?_, fun inputs consumer r p hp => ?_⟩
  · obtain ⟨cap, hcap⟩ := (hscope (c.inputsType w)).known s hs
    exact ⟨cap, .of_known hw hs hcap⟩
  · obtain ⟨hmem, hlabel, -⟩ := (Scope.producer_eq_ok_iff hw).1 hp
    obtain ⟨cap, hcap⟩ := (hscope inputs).known p hmem
    exact ⟨hmem, hlabel, cap, .of_known hw hmem hcap,
      fun hr => Scope.producerOutput_of_producer hr hp hcap⟩

/-- The sample has a step that a reference names. -/
theorem grounded_sample : Sample.entry.Loaded ∧
    isHalting (Sample.checker.structureFindings Sample.entry) = false ∧
      ∃ w, Sample.entry.graph = some w ∧ (∀ s ∈ w.steps, ∃ cap, Sample.checker.Grounded w s cap) ∧
        ∀ inputs consumer r p, (Sample.checker.scope w inputs).producer consumer r = .ok p →
          p ∈ w.steps ∧ p.label = r.producer ∧ ∃ cap, Sample.checker.Grounded w p cap ∧
            (r.producer ≠ Sample.checker.settings.inputNamespace →
              (Sample.checker.scope w inputs).producerOutput consumer r = .ok cap.output) :=
  have he : Sample.entry.Loaded := .authored 10 "w" Sample.workflow
  have h : isHalting (Sample.checker.structureFindings Sample.entry) = false := by decide +kernel
  ⟨he, h, grounded_of_not_isHalting Sample.checker Sample.entry he h⟩

end Checker

end CapabilityFlow
