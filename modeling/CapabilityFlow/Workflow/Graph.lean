import CapabilityFlow.Binding
import CapabilityFlow.Workflow.Authored

/-!
# Workflow graphs

The steps of a workflow with their bindings read, in the order in which they run. Steps of one
parallel group run side by side, and a recovery loop goes back to an earlier step.
-/

namespace CapabilityFlow

/-- How the results of a parallel group are joined. -/
inductive Join where
  | all
  | any
  | first
  | merge
deriving DecidableEq, Repr, Inhabited

namespace Join

def every : List Join := [all, any, first, merge]

def name : Join → String
  | all => "all"
  | any => "any"
  | first => "first"
  | merge => "merge"

/-- The join of a name. -/
def ofName? (s : String) : Option Join :=
  every.find? fun j => s = j.name

def decode : Decode.Reader Join :=
  Decode.variant (every.map name) ofName?

end Join

/-- A condition that halts the workflow before a step. -/
structure Gate where
  condition : Expression
  action : String
  message : Option String
deriving Repr, DecidableEq

/-- What to do when a step fails. -/
structure FailureMode where
  condition : String
  action : String
  recovery : Option String
  goto : Option String
  maxLoops : Option Nat
deriving Repr, DecidableEq

/-- One use of a capability. -/
structure Step where
  /-- The place in the workflow. -/
  index : Nat
  capability : String
  /-- The name under which other steps read what the step yields. -/
  label : String
  bindings : Table Binding
  condition : Option Expression
  group : Option String
  gates : List Gate
  failures : List FailureMode
deriving Repr, DecidableEq

/-- Whether two steps run side by side. -/
def Step.isSibling (a b : Step) : Bool :=
  a.index ≠ b.index && a.group.isSome && a.group = b.group

/-- The way back from a failing step to an earlier one, or to itself. -/
structure RecoveryLoop where
  /-- The place of the step to go back to. -/
  target : Nat
  /-- The place of the step that fails. -/
  source : Nat
  maxLoops : Nat
deriving Repr, DecidableEq

/-- A workflow whose steps have distinct labels. -/
structure Workflow where
  name : String
  version : Option String
  ontologyVersion : Option String
  risk : Option Risk
  inputs : Option Value
  groups : Table Join
  steps : List Step
deriving Repr, DecidableEq

/-- Why there is no such workflow or step. -/
inductive WorkflowError where
  | stepNotFound (label : String)
  | duplicateLabel (label : String)
deriving Repr, DecidableEq

def WorkflowError.message : WorkflowError → String
  | stepNotFound label => s!"Step not found: {label}"
  | duplicateLabel label => s!"Duplicate store_as alias: {label}"

namespace Workflow

/-- The first label that occurs before. -/
def repeatedLabel? (seen : List String) : List Step → Option String
  | [] => none
  | s :: rest =>
    if seen.contains s.label then some s.label else repeatedLabel? (s.label :: seen) rest

/-- The workflow of given steps, with nothing else declared. -/
def ofSteps (name : String) (steps : List Step) : Except WorkflowError Workflow :=
  match repeatedLabel? [] steps with
  | some label => .error (.duplicateLabel label)
  | none => .ok ⟨name, none, none, none, none, [], steps⟩

/-- The step of a label. -/
def step? (w : Workflow) (label : String) : Option Step :=
  w.steps.find? (·.label = label)

/-- The place of the step of a label. -/
def stepIndex (w : Workflow) (label : String) : Except WorkflowError Nat :=
  match w.step? label with
  | some s => .ok s.index
  | none => .error (.stepNotFound label)

/-- The loops from a step back to itself or an earlier one. -/
def loopsFrom (w : Workflow) (s : Step) : List RecoveryLoop :=
  s.failures.filterMap fun f => do
    let target ← w.step? (← f.goto)
    if target.index ≤ s.index then some ⟨target.index, s.index, f.maxLoops.getD 0⟩ else none

def recoveryLoops (w : Workflow) : List RecoveryLoop :=
  w.steps.flatMap w.loopsFrom

/-- Whether a step can read what a step not before it yielded in an earlier pass through a loop. -/
def loopVisible (w : Workflow) (consumer producer : Nat) : Bool :=
  w.recoveryLoops.any fun l =>
    l.target ≤ consumer && consumer ≤ producer && producer ≤ l.source

/-- The steps of a parallel group. -/
def groupMembers (w : Workflow) (group : String) : List Step :=
  w.steps.filter (·.group = some group)

end Workflow

end CapabilityFlow
