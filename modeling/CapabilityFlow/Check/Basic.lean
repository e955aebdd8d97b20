import CapabilityFlow.Coercion
import CapabilityFlow.Finding
import CapabilityFlow.Settings
import CapabilityFlow.Workflow.Graph

/-!
# Checkers

What workflows are checked against, and what the rules of several levels ask of a workflow.
-/

namespace CapabilityFlow

/-- What workflows are checked against. With a registry, mismatches are given patches. -/
structure Checker where
  ontology : Ontology
  settings : Settings := {}
  registry : Option CoercionRegistry := none

namespace Workflow

/-- Where a finding about a step applies. -/
def location (w : Workflow) (s : Step) : Location :=
  .atStep w.name s.index s.label

/-- Whether a step before the given one, and not side by side with it, runs a capability that
satisfies a test. -/
def runsBefore (w : Workflow) (s : Step) (p : String → Bool) : Bool :=
  (w.steps.take s.index).any fun t => !s.isSibling t && p t.capability

/-- The steps that are not among the given places. -/
def stepsExcept (w : Workflow) (places : List Nat) : List Step :=
  w.steps.filter fun s => !places.contains s.index

end Workflow

/-- The places of the steps that have an error. -/
def Finding.failedSteps (fs : List Finding) : List Nat :=
  fs.filterMap fun f => if f.isError then f.location.index else none

end CapabilityFlow
