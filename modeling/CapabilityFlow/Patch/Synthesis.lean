import CapabilityFlow.Coercion
import CapabilityFlow.Finding
import CapabilityFlow.Patch.Basic
import CapabilityFlow.Text.LineDiff
import CapabilityFlow.Workflow.Graph
import CapabilityFlow.Yaml.Writer

/-!
# Patches for type mismatches

A mismatch between two types that a coercion leads across is repaired by a step that runs the
coercion before the consumer, which then reads from that step. `CoercionRegistry.patchFor` makes
the patch of one finding, and `freshLabel` names its step.
-/

namespace CapabilityFlow

/-! ## Names of inserted steps -/

/-- The `n`-th alternative to a name. -/
def numbered (base : String) (n : Nat) : String :=
  s!"{base}_{n}"

/-- A name that is not taken: the given one, or the first of its alternatives from the second on. -/
def freshLabel (taken : List String) (base : String) : String :=
  if taken.contains base then
    let alternatives := (List.range (taken.length + 1)).map fun n => numbered base (n + 2)
    (alternatives.find? (!taken.contains ·)).getD base
  else base

/-- The labels of the steps of a document. -/
def AuthoredWorkflow.labels (w : AuthoredWorkflow) : List String :=
  w.steps.filterMap (·.label)

/-! ## Patches -/

/-- The coercion between types that are given by their texts. -/
def CoercionRegistry.lookupTypes? (r : CoercionRegistry) (types : TypePair) : Option Coercion := do
  let found ← (TypeText.parse types.found).toOption
  let expected ← (TypeText.parse types.expected).toOption
  r.lookup? found expected

/-- The step that runs a coercion on a value. -/
def Coercion.step (c : Coercion) (label : String) (types : TypePair) (input : Value) :
    AuthoredStep where
  capability := some c.capability
  label := some label
  purpose := some s!"Coerce {types.found} to {types.expected}"
  bindings := c.params.foldl (fun t p => t.set p.1 p.2) [(c.inputField, input)]

/-- The reference to what the step of a coercion yields. -/
def Coercion.outputReference (c : Coercion) (label expected : String) : Value :=
  .str (spanText s!"{label}.{c.outputField}:{expected}")

/-- Whether a binding is one reference and nothing else. -/
def Workflow.bindsReference (w : Workflow) (label field : String) : Bool :=
  match (w.step? label).bind (·.bindings.get? field) with
  | some (.reference _) => true
  | _ => false

/-- The patch by which a coercion repairs the binding of a field. -/
def Coercion.patch (c : Coercion) (authored : AuthoredWorkflow) (workflow : String)
    (label field : String) (types : TypePair) : Except PatchError Patch := do
  let old ← authored.boundValue label field
  let inserted := freshLabel authored.labels s!"{label}_{field}_coerced"
  let patch : Patch := {
    workflow
    step := label
    field
    found := types.found
    expected := types.expected
    capability := c.capability
    edits := [
      .insert label (c.step inserted types old),
      .rebind label field old (c.outputReference inserted types.expected)]
    diff := "" }
  match patch.apply authored with
  | (_, some cause) => .error cause
  | (patched, none) =>
    pure { patch with
      diff := Text.unifiedDiff authored.toValue.toYaml patched.toValue.toYaml s!"a/{workflow}"
        s!"b/{workflow}" }

/-- The patch for a finding. There is one for a type mismatch with a registered coercion, at a
field that is bound to one reference and nothing else. -/
def CoercionRegistry.patchFor (r : CoercionRegistry) (authored : AuthoredWorkflow) (w : Workflow)
    (f : Finding) : Except PatchError (Option Patch) :=
  if f.code ≠ .typeMismatch then .ok none
  else
    match f.types, f.location.step, f.location.field with
    | some types, some label, some field =>
      match r.lookupTypes? types with
      | none => .ok none
      | some c =>
        if w.bindsReference label field then
          (c.patch authored w.name label field types).map some
        else .ok none
    | _, _, _ => .ok none

end CapabilityFlow
