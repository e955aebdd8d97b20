import CapabilityFlow.Proofs.Value.Record

/-!
# The formats of workflow documents

The fields of the five records of a workflow document, each with its names, the way in which it is
read and written and where it is kept. Reading and writing documents is reading and writing in these
formats, whatever the documents hold.
-/

namespace CapabilityFlow

/-! ## Gates -/

namespace AuthoredGate

def format : Format Draft AuthoredGate where
  expected := "struct GateDocument"
  fields :=
    [{ name := "when", otherNames := ["condition"], slot := .always .text "" (Coding.read_text _),
       draft := Draft.condition, put := fun d o => { d with condition := o },
       content := AuthoredGate.condition },
     { name := "action", slot := .always .text defaultAction (Coding.read_text _),
       draft := Draft.action, put := fun d o => { d with action := o }, content := AuthoredGate.action },
     { name := "message", slot := .optional .text, draft := Draft.message,
       put := fun d o => { d with message := o }, content := AuthoredGate.message }]
  start := {}
  draftExtra := Draft.extra
  putExtra d t := { d with extra := t }
  finish d := ⟨d.condition.getD "", d.action.getD defaultAction, d.message.join, d.extra⟩
  extra := AuthoredGate.extra

theorem put_eq : Draft.put = format.put := by
  funext d name v
  unfold Draft.put
  split
  case h_5 name _ =>
    rw [Format.put_of_notMem (by simp_all [format, Format.names, Field.names])]
    rfl
  all_goals rfl

theorem decode_eq : decode = format.read := by
  funext v
  cases v with
  | obj ms =>
    rw [decode, put_eq]
    rfl
  | _ => rfl

theorem toValue_eq (g : AuthoredGate) : g.toValue = .obj (format.encode g) := by
  simp [toValue, Format.encode, format, Field.written, Table.optionalText]

def coding : Coding AuthoredGate :=
  format.coding decode toValue decode_eq toValue_eq

end AuthoredGate

/-! ## Failure modes -/

namespace AuthoredFailure

def format : Format Draft AuthoredFailure where
  expected := "struct FailureModeDocument"
  fields :=
    [{ name := "condition", slot := .always .text "" (Coding.read_text _), draft := Draft.condition,
       put := fun d o => { d with condition := o }, content := AuthoredFailure.condition },
     { name := "action", slot := .always .text "" (Coding.read_text _), draft := Draft.action,
       put := fun d o => { d with action := o }, content := AuthoredFailure.action },
     { name := "recovery", slot := .optional .text, draft := Draft.recovery,
       put := fun d o => { d with recovery := o }, content := AuthoredFailure.recovery },
     { name := "goto_step", slot := .optional .text, draft := Draft.goto,
       put := fun d o => { d with goto := o }, content := AuthoredFailure.goto },
     { name := "max_loops", slot := .optional .natural, draft := Draft.maxLoops,
       put := fun d o => { d with maxLoops := o }, content := AuthoredFailure.maxLoops }]
  start := {}
  draftExtra := Draft.extra
  putExtra d t := { d with extra := t }
  finish d := ⟨d.condition.getD "", d.action.getD "", d.recovery.join, d.goto.join,
    d.maxLoops.join, d.extra⟩
  extra := AuthoredFailure.extra

theorem put_eq : Draft.put = format.put := by
  funext d name v
  unfold Draft.put
  split
  case h_6 name _ =>
    rw [Format.put_of_notMem (by simp_all [format, Format.names, Field.names])]
    rfl
  all_goals rfl

theorem decode_eq : decode = format.read := by
  funext v
  cases v with
  | obj ms =>
    rw [decode, put_eq]
    rfl
  | _ => rfl

theorem toValue_eq (f : AuthoredFailure) : f.toValue = .obj (format.encode f) := by
  cases h : f.maxLoops <;>
    simp [toValue, Format.encode, format, Field.written, Table.optionalText, h]

def coding : Coding AuthoredFailure :=
  format.coding decode toValue decode_eq toValue_eq

end AuthoredFailure

/-! ## Groups -/

namespace AuthoredGroup

def format : Format Draft AuthoredGroup where
  expected := "struct ParallelGroupDocument"
  fields :=
    [{ name := "join", slot := .optional .text, draft := Draft.join,
       put := fun d o => { d with join := o }, content := AuthoredGroup.join }]
  start := {}
  draftExtra := Draft.extra
  putExtra d t := { d with extra := t }
  finish d := ⟨d.join.join, d.extra⟩
  extra := AuthoredGroup.extra

theorem put_eq : Draft.put = format.put := by
  funext d name v
  unfold Draft.put
  split
  case h_2 name _ =>
    rw [Format.put_of_notMem (by simp_all [format, Format.names, Field.names])]
    rfl
  all_goals rfl

theorem decode_eq : decode = format.read := by
  funext v
  cases v with
  | obj ms =>
    rw [decode, put_eq]
    rfl
  | _ => rfl

theorem toValue_eq (g : AuthoredGroup) : g.toValue = .obj (format.encode g) := by
  simp [toValue, Format.encode, format, Field.written, Table.optionalText]

def coding : Coding AuthoredGroup :=
  format.coding decode toValue decode_eq toValue_eq

end AuthoredGroup

/-! ## Steps -/

namespace AuthoredStep

def format : Format Draft AuthoredStep where
  expected := "struct StepDocument"
  fields :=
    [{ name := "capability", slot := .optional .text, draft := Draft.capability,
       put := fun d o => { d with capability := o }, content := AuthoredStep.capability },
     { name := "store_as", slot := .optional .text, draft := Draft.label,
       put := fun d o => { d with label := o }, content := AuthoredStep.label },
     { name := "purpose", slot := .optional .text, draft := Draft.purpose,
       put := fun d o => { d with purpose := o }, content := AuthoredStep.purpose },
     { name := "input_bindings", slot := .table .any, draft := Draft.bindings,
       put := fun d o => { d with bindings := o }, content := AuthoredStep.bindings },
     { name := "condition", slot := .optional .text, draft := Draft.condition,
       put := fun d o => { d with condition := o }, content := AuthoredStep.condition },
     { name := "parallel_group", slot := .optional .text, draft := Draft.group,
       put := fun d o => { d with group := o }, content := AuthoredStep.group },
     { name := "gates", slot := .list AuthoredGate.coding, draft := Draft.gates,
       put := fun d o => { d with gates := o }, content := AuthoredStep.gates },
     { name := "failure_modes", slot := .list AuthoredFailure.coding, draft := Draft.failures,
       put := fun d o => { d with failures := o }, content := AuthoredStep.failures }]
  start := {}
  draftExtra := Draft.extra
  putExtra d t := { d with extra := t }
  finish d := {
    capability := d.capability.join
    label := d.label.join
    purpose := d.purpose.join
    bindings := d.bindings.getD []
    condition := d.condition.join
    group := d.group.join
    gates := d.gates.getD []
    failures := d.failures.getD []
    extra := d.extra }
  extra := AuthoredStep.extra

theorem put_eq : Draft.put = format.put := by
  funext d name v
  unfold Draft.put
  dsimp only
  split
  case h_9 name _ =>
    rw [Format.put_of_notMem (by simp_all [format, Format.names, Field.names])]
    rfl
  all_goals rfl

theorem decode_eq : decode = format.read := by
  funext v
  cases v with
  | obj ms =>
    rw [decode, put_eq]
    rfl
  | _ => rfl

theorem toValue_eq (s : AuthoredStep) : s.toValue = .obj (format.encode s) := by
  simp [toValue, Format.encode, format, Field.written, Table.optionalText,
    Table.optionalMember_of_collection, AuthoredGate.coding, AuthoredFailure.coding]

def coding : Coding AuthoredStep :=
  format.coding decode toValue decode_eq toValue_eq

end AuthoredStep

/-! ## Workflows -/

namespace AuthoredWorkflow

def format : Format Draft AuthoredWorkflow where
  expected := "struct WorkflowDocument"
  fields :=
    [{ name := "name", slot := .optional .text, draft := Draft.name,
       put := fun d o => { d with name := o }, content := AuthoredWorkflow.name },
     { name := "version", slot := .optional .text, draft := Draft.version,
       put := fun d o => { d with version := o }, content := AuthoredWorkflow.version },
     { name := "ontology_version", slot := .optional .text, draft := Draft.ontologyVersion,
       put := fun d o => { d with ontologyVersion := o },
       content := AuthoredWorkflow.ontologyVersion },
     { name := "goal", slot := .optional .text, draft := Draft.goal,
       put := fun d o => { d with goal := o }, content := AuthoredWorkflow.goal },
     { name := "risk", slot := .optional .risk, draft := Draft.risk,
       put := fun d o => { d with risk := o }, content := AuthoredWorkflow.risk },
     { name := "inputs", slot := .optional .any, draft := Draft.inputs,
       put := fun d o => { d with inputs := o }, content := AuthoredWorkflow.inputs },
     { name := "parallel_groups", slot := .table AuthoredGroup.coding, draft := Draft.groups,
       put := fun d o => { d with groups := o }, content := AuthoredWorkflow.groups },
     { name := "steps", slot := .always (.list AuthoredStep.coding) [] (Coding.read_list_nil _),
       draft := Draft.steps, put := fun d o => { d with steps := o },
       content := AuthoredWorkflow.steps }]
  start := {}
  draftExtra := Draft.extra
  putExtra d t := { d with extra := t }
  finish d := {
    name := d.name.join
    version := d.version.join
    ontologyVersion := d.ontologyVersion.join
    goal := d.goal.join
    risk := d.risk.join
    inputs := d.inputs.join
    groups := d.groups.getD []
    steps := d.steps.getD []
    extra := d.extra }
  extra := AuthoredWorkflow.extra

theorem put_eq : Draft.put = format.put := by
  funext d name v
  unfold Draft.put
  dsimp only
  split
  case h_9 name _ =>
    rw [Format.put_of_notMem (by simp_all [format, Format.names, Field.names])]
    rfl
  all_goals rfl

theorem decode_eq : decode = format.read := by
  funext v
  cases v with
  | obj ms =>
    rw [decode, put_eq]
    rfl
  | _ => rfl

theorem toValue_eq (w : AuthoredWorkflow) : w.toValue = .obj (format.encode w) := by
  simp [toValue, Format.encode, format, Field.written, Table.optionalText,
    Table.optionalMember_of_collection, AuthoredGroup.coding, AuthoredStep.coding,
    Function.comp_def]

def coding : Coding AuthoredWorkflow :=
  format.coding decode toValue decode_eq toValue_eq

end AuthoredWorkflow

end CapabilityFlow
