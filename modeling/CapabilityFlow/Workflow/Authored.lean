import CapabilityFlow.Ontology.Capability
import CapabilityFlow.Yaml.Shape

/-!
# Workflows as they are written

Workflow documents field by field, before anything is checked. What the types do not name is kept
in `extra`, so that `AuthoredWorkflow.toValue` writes a document back with all that it said.
-/

namespace CapabilityFlow

/-- A condition that halts a workflow before a step. -/
structure AuthoredGate where
  condition : String
  action : String
  message : Option String
  extra : Table Value
deriving Repr, DecidableEq

/-- What to do when a step fails. -/
structure AuthoredFailure where
  condition : String
  action : String
  recovery : Option String
  /-- The label of the step to go back to. -/
  goto : Option String
  maxLoops : Option Nat
  extra : Table Value
deriving Repr, DecidableEq

/-- A group of steps that run side by side. -/
structure AuthoredGroup where
  join : Option String
  extra : Table Value
deriving Repr, DecidableEq

/-- A step of a workflow. -/
structure AuthoredStep where
  capability : Option String := none
  /-- The label under which later steps read what the step yields. -/
  label : Option String := none
  purpose : Option String := none
  bindings : Table Value := []
  condition : Option String := none
  group : Option String := none
  gates : List AuthoredGate := []
  failures : List AuthoredFailure := []
  extra : Table Value := []
deriving Repr, DecidableEq

/-- A workflow. -/
structure AuthoredWorkflow where
  name : Option String := none
  version : Option String := none
  ontologyVersion : Option String := none
  goal : Option String := none
  risk : Option Risk := none
  /-- The schema of the workflow's own inputs. -/
  inputs : Option Value := none
  groups : Table AuthoredGroup := []
  steps : List AuthoredStep := []
  extra : Table Value := []
deriving Repr, DecidableEq

/-! ## Decoding -/

namespace AuthoredGate

def defaultAction : String := "stop"

/-- The fields of a gate read so far. -/
structure Draft where
  condition : Option String := none
  action : Option String := none
  message : Option (Option String) := none
  extra : Table Value := []

/-- Reads one member; `condition` is another name of `when`. -/
def Draft.put (d : Draft) (name : String) (v : Value) : Except DecodeError Draft :=
  match name with
  | "when" | "condition" => do
    pure { d with condition := ← Decode.once "when" d.condition Decode.string v }
  | "action" => do pure { d with action := ← Decode.once name d.action Decode.string v }
  | "message" => do
    pure { d with message := ← Decode.once name d.message (Decode.optional Decode.string) v }
  | _ => .ok { d with extra := d.extra.set name v }

def decode : Decode.Reader AuthoredGate
  | .obj ms => do
    let d ← Decode.members Draft.put {} ms
    pure ⟨d.condition.getD "", d.action.getD defaultAction, d.message.join, d.extra⟩
  | v => .error (.invalidType v "struct GateDocument")

end AuthoredGate

namespace AuthoredFailure

/-- The fields of a failure mode read so far. -/
structure Draft where
  condition : Option String := none
  action : Option String := none
  recovery : Option (Option String) := none
  goto : Option (Option String) := none
  maxLoops : Option (Option Nat) := none
  extra : Table Value := []

def Draft.put (d : Draft) (name : String) (v : Value) : Except DecodeError Draft :=
  match name with
  | "condition" => do pure { d with condition := ← Decode.once name d.condition Decode.string v }
  | "action" => do pure { d with action := ← Decode.once name d.action Decode.string v }
  | "recovery" => do
    pure { d with recovery := ← Decode.once name d.recovery (Decode.optional Decode.string) v }
  | "goto_step" => do
    pure { d with goto := ← Decode.once name d.goto (Decode.optional Decode.string) v }
  | "max_loops" => do
    pure { d with maxLoops := ← Decode.once name d.maxLoops (Decode.optional Decode.natural32) v }
  | _ => .ok { d with extra := d.extra.set name v }

def decode : Decode.Reader AuthoredFailure
  | .obj ms => do
    let d ← Decode.members Draft.put {} ms
    pure ⟨d.condition.getD "", d.action.getD "", d.recovery.join, d.goto.join, d.maxLoops.join,
      d.extra⟩
  | v => .error (.invalidType v "struct FailureModeDocument")

end AuthoredFailure

namespace AuthoredGroup

/-- The fields of a group read so far. -/
structure Draft where
  join : Option (Option String) := none
  extra : Table Value := []

def Draft.put (d : Draft) (name : String) (v : Value) : Except DecodeError Draft :=
  match name with
  | "join" => do
    pure { d with join := ← Decode.once name d.join (Decode.optional Decode.string) v }
  | _ => .ok { d with extra := d.extra.set name v }

def decode : Decode.Reader AuthoredGroup
  | .obj ms => do
    let d ← Decode.members Draft.put {} ms
    pure ⟨d.join.join, d.extra⟩
  | v => .error (.invalidType v "struct ParallelGroupDocument")

end AuthoredGroup

namespace AuthoredStep

/-- The fields of a step read so far. -/
structure Draft where
  capability : Option (Option String) := none
  label : Option (Option String) := none
  purpose : Option (Option String) := none
  bindings : Option (Table Value) := none
  condition : Option (Option String) := none
  group : Option (Option String) := none
  gates : Option (List AuthoredGate) := none
  failures : Option (List AuthoredFailure) := none
  extra : Table Value := []

def Draft.put (d : Draft) (name : String) (v : Value) : Except DecodeError Draft :=
  let text := Decode.optional Decode.string
  match name with
  | "capability" => do pure { d with capability := ← Decode.once name d.capability text v }
  | "store_as" => do pure { d with label := ← Decode.once name d.label text v }
  | "purpose" => do pure { d with purpose := ← Decode.once name d.purpose text v }
  | "input_bindings" => do
    pure { d with bindings := ← Decode.once name d.bindings (Decode.table Decode.value) v }
  | "condition" => do pure { d with condition := ← Decode.once name d.condition text v }
  | "parallel_group" => do pure { d with group := ← Decode.once name d.group text v }
  | "gates" => do
    pure { d with gates := ← Decode.once name d.gates (Decode.list AuthoredGate.decode) v }
  | "failure_modes" => do
    let read := Decode.list AuthoredFailure.decode
    pure { d with failures := ← Decode.once name d.failures read v }
  | _ => .ok { d with extra := d.extra.set name v }

def decode : Decode.Reader AuthoredStep
  | .obj ms => do
    let d ← Decode.members Draft.put {} ms
    pure {
      capability := d.capability.join
      label := d.label.join
      purpose := d.purpose.join
      bindings := d.bindings.getD []
      condition := d.condition.join
      group := d.group.join
      gates := d.gates.getD []
      failures := d.failures.getD []
      extra := d.extra }
  | v => .error (.invalidType v "struct StepDocument")

end AuthoredStep

namespace AuthoredWorkflow

/-- The fields of a workflow read so far. -/
structure Draft where
  name : Option (Option String) := none
  version : Option (Option String) := none
  ontologyVersion : Option (Option String) := none
  goal : Option (Option String) := none
  risk : Option (Option Risk) := none
  inputs : Option (Option Value) := none
  groups : Option (Table AuthoredGroup) := none
  steps : Option (List AuthoredStep) := none
  extra : Table Value := []

def Draft.put (d : Draft) (name : String) (v : Value) : Except DecodeError Draft :=
  let text := Decode.optional Decode.string
  match name with
  | "name" => do pure { d with name := ← Decode.once name d.name text v }
  | "version" => do pure { d with version := ← Decode.once name d.version text v }
  | "ontology_version" => do
    pure { d with ontologyVersion := ← Decode.once name d.ontologyVersion text v }
  | "goal" => do pure { d with goal := ← Decode.once name d.goal text v }
  | "risk" => do
    pure { d with risk := ← Decode.once name d.risk (Decode.optional Risk.decode) v }
  | "inputs" => do
    pure { d with inputs := ← Decode.once name d.inputs (Decode.optional Decode.value) v }
  | "parallel_groups" => do
    let read := Decode.table AuthoredGroup.decode
    pure { d with groups := ← Decode.once name d.groups read v }
  | "steps" => do
    pure { d with steps := ← Decode.once name d.steps (Decode.list AuthoredStep.decode) v }
  | _ => .ok { d with extra := d.extra.set name v }

def decode : Decode.Reader AuthoredWorkflow
  | .obj ms => do
    let d ← Decode.members Draft.put {} ms
    pure {
      name := d.name.join
      version := d.version.join
      ontologyVersion := d.ontologyVersion.join
      goal := d.goal.join
      risk := d.risk.join
      inputs := d.inputs.join
      groups := d.groups.getD []
      steps := d.steps.getD []
      extra := d.extra }
  | v => .error (.invalidType v "struct WorkflowDocument")

end AuthoredWorkflow

/-! ## Encoding -/

/-- A member that is left out when there is nothing to write. -/
def Table.optionalMember (name : String) (v : Option Value) : Members :=
  match v with
  | some v => [(name, v)]
  | none => []

/-- A text that is left out when there is none. -/
def Table.optionalText (name : String) (s : Option String) : Members :=
  Table.optionalMember name (s.map .str)

def AuthoredGate.toValue (g : AuthoredGate) : Value :=
  .obj ([("when", .str g.condition), ("action", .str g.action)] ++
    Table.optionalText "message" g.message ++ g.extra)

def AuthoredFailure.toValue (f : AuthoredFailure) : Value :=
  .obj ([("condition", .str f.condition), ("action", .str f.action)] ++
    Table.optionalText "recovery" f.recovery ++ Table.optionalText "goto_step" f.goto ++
    Table.optionalMember "max_loops" (f.maxLoops.map fun n => .int n) ++ f.extra)

def AuthoredGroup.toValue (g : AuthoredGroup) : Value :=
  .obj (Table.optionalText "join" g.join ++ g.extra)

/-- A member that is left out when its collection is empty. -/
def Table.nonEmptyMember {α : Type} (name : String) (items : List α) (v : Value) : Members :=
  if items.isEmpty then [] else [(name, v)]

def AuthoredStep.toValue (s : AuthoredStep) : Value :=
  .obj (Table.optionalText "capability" s.capability ++ Table.optionalText "store_as" s.label ++
    Table.optionalText "purpose" s.purpose ++
    Table.nonEmptyMember "input_bindings" s.bindings (.obj s.bindings) ++
    Table.optionalText "condition" s.condition ++ Table.optionalText "parallel_group" s.group ++
    Table.nonEmptyMember "gates" s.gates (.arr (s.gates.map AuthoredGate.toValue)) ++
    Table.nonEmptyMember "failure_modes" s.failures
      (.arr (s.failures.map AuthoredFailure.toValue)) ++ s.extra)

/-- A workflow as a document. -/
def AuthoredWorkflow.toValue (w : AuthoredWorkflow) : Value :=
  .obj (Table.optionalText "name" w.name ++ Table.optionalText "version" w.version ++
    Table.optionalText "ontology_version" w.ontologyVersion ++ Table.optionalText "goal" w.goal ++
    Table.optionalText "risk" (w.risk.map Risk.name) ++ Table.optionalMember "inputs" w.inputs ++
    Table.nonEmptyMember "parallel_groups" w.groups
      (.obj (w.groups.map fun g => (g.1, g.2.toValue))) ++
    [("steps", .arr (w.steps.map AuthoredStep.toValue))] ++ w.extra)

/-! ## From texts -/

namespace AuthoredWorkflow

/-- What a workflow text holds. -/
def shape : Yaml.Shape :=
  let maybe : Yaml.Shape := .optional .text
  let gate : Yaml.Shape := .record
    [("when", .text), ("condition", .text), ("action", .text), ("message", maybe)] true
  let failure : Yaml.Shape := .record
    [("condition", .text), ("action", .text), ("recovery", maybe), ("goto_step", maybe),
      ("max_loops", .optional .natural)] true
  let step : Yaml.Shape := .record
    [("capability", maybe), ("store_as", maybe), ("purpose", maybe),
      ("input_bindings", .table .any), ("condition", maybe), ("parallel_group", maybe),
      ("gates", .list gate), ("failure_modes", .list failure)] true
  .record
    [("name", maybe), ("version", maybe), ("ontology_version", maybe), ("goal", maybe),
      ("risk", .optional .variant), ("inputs", .optional .any),
      ("parallel_groups", .table (.record [("join", maybe)] true)), ("steps", .list step)] true

/-- The workflow that a YAML text writes, if it writes one. -/
def ofText? (text : String) : Option AuthoredWorkflow := do
  (decode (← Yaml.shapedValue? shape text)).toOption

end AuthoredWorkflow

end CapabilityFlow
