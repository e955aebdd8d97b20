import CapabilityFlow.Workflow.Authored

/-!
# Patches

A patch is a list of edits of a workflow document. Edits name steps by their labels, so several
patches of one workflow can be applied in any order. `Patch.apply` makes the edits one after
another; the edits before one that fails stay made.
-/

namespace CapabilityFlow

/-- One edit of a workflow document. -/
inductive PatchEdit where
  /-- A new step right before the step of a label. -/
  | insert (before : String) (step : AuthoredStep)
  /-- A new value for the binding of a field. -/
  | rebind (step field : String) (old new : Value)
deriving Repr, DecidableEq

/-- A suggested repair of one type mismatch. -/
structure Patch where
  workflow : String
  /-- The label of the step whose binding is repaired. -/
  step : String
  field : String
  found : String
  expected : String
  /-- The capability of the inserted step. -/
  capability : String
  edits : List PatchEdit
  /-- How the patch changes the document. -/
  diff : String
deriving Repr, DecidableEq

/-- Why an edit cannot be made. -/
inductive PatchError where
  | stepNotFound (label : String)
  | bindingNotFound (step field : String)
deriving Repr, DecidableEq

def PatchError.message : PatchError → String
  | stepNotFound label => s!"Patch target step not found: {label}"
  | bindingNotFound step field => s!"Patch target binding not found: {step}.{field}"

namespace AuthoredWorkflow

/-- The place of the first step of a label. -/
def stepPlace (w : AuthoredWorkflow) (label : String) : Except PatchError Nat :=
  match w.steps.findIdx? fun s => s.label = some label with
  | some i => .ok i
  | none => .error (.stepNotFound label)

/-- The value bound to a field of the first step of a label. -/
def boundValue (w : AuthoredWorkflow) (label field : String) : Except PatchError Value := do
  let i ← w.stepPlace label
  match (w.steps[i]?).bind (·.bindings.get? field) with
  | some v => .ok v
  | none => .error (.bindingNotFound label field)

end AuthoredWorkflow

namespace PatchEdit

/-- Makes an edit. -/
def apply (e : PatchEdit) (w : AuthoredWorkflow) : Except PatchError AuthoredWorkflow :=
  match e with
  | insert before step => do
    let i ← w.stepPlace before
    pure { w with steps := w.steps.insertIdx i step }
  | rebind label field _ new => do
    let i ← w.stepPlace label
    let _ ← w.boundValue label field
    let rebound (s : AuthoredStep) : AuthoredStep := { s with bindings := s.bindings.set field new }
    pure { w with steps := w.steps.modify i rebound }

/-- Makes edits in turn up to the first that fails: the document then, and that failure. -/
def applyAll : List PatchEdit → AuthoredWorkflow → AuthoredWorkflow × Option PatchError
  | [], w => (w, none)
  | e :: rest, w =>
    match e.apply w with
    | .ok w => applyAll rest w
    | .error cause => (w, some cause)

def toValue : PatchEdit → Value
  | insert before step =>
    .obj [("op", .str "insert_step"), ("before", .str before), ("step", step.toValue)]
  | rebind label field old new =>
    .obj [("op", .str "rewrite_binding"), ("step", .str label), ("field", .str field),
      ("from", old), ("to", new)]

end PatchEdit

namespace Patch

/-- The document after the edits, or after those before the first that fails. -/
def apply (p : Patch) (w : AuthoredWorkflow) : AuthoredWorkflow × Option PatchError :=
  PatchEdit.applyAll p.edits w

/-- The label of the first step that a patch inserts. -/
def insertedLabel? (p : Patch) : Option String :=
  p.edits.findSome? fun
    | .insert _ step => step.label
    | .rebind .. => none

/-- A patch in words. -/
def summary (p : Patch) : String :=
  let label := match p.insertedLabel? with
    | some a => s!" '{a}'"
    | none => ""
  s!"Insert a '{p.capability}' step{label} before '{p.step}' to coerce {p.found} to " ++
    s!"{p.expected}, and bind '{p.field}' to its output"

def toValue (p : Patch) : Value :=
  .obj [("workflow", .str p.workflow), ("step", .str p.step), ("field", .str p.field),
    ("found", .str p.found), ("expected", .str p.expected), ("capability", .str p.capability),
    ("operations", .arr (p.edits.map PatchEdit.toValue)), ("diff", .str p.diff)]

end Patch

end CapabilityFlow
