import CapabilityFlow.Check.Contracts
import CapabilityFlow.Check.Policies
import CapabilityFlow.Check.Relations
import CapabilityFlow.Check.Structure
import CapabilityFlow.Patch.Synthesis
import CapabilityFlow.Report

/-!
# The levels of a check

The levels run one after another. A structural error ends the check of a workflow; after that, a
step with an error at one level is left out of the levels above. Warnings leave nothing out.
-/

namespace CapabilityFlow

namespace Workflow

/-- The names by which a mapping shows that it is a schema, and not a list of fields. -/
def schemaKeywords : List String :=
  ["type", "properties", "$ref", "oneOf", "anyOf", "allOf", "items", "enum", "const"]

/-- The declared schema of the inputs, if there is one. A mapping that is no schema declares the
fields of an object. -/
def inputsSchema? (w : Workflow) : Option Value :=
  match w.inputs with
  | none | some .null => none
  | some (.obj ms) =>
    if schemaKeywords.any (Table.has ms) then some (.obj ms)
    else some (.obj [("type", .str "object"), ("properties", .obj ms)])
  | some v => some v

end Workflow

namespace Checker

/-- The type of the inputs of a workflow. -/
def inputsType (c : Checker) (w : Workflow) : Except SchemaError Schema :=
  match w.inputsSchema? with
  | none => .ok .any
  | some raw =>
    let library := { Library.ofRoot raw with maxDepth := c.settings.maxReferenceDepth }
    ((Resolver.ofLibrary library).resolve raw).1

/-- The finding about a schema of the inputs that does not resolve. -/
def inputsFindings (w : Workflow) : Except SchemaError Schema → List Finding
  | .ok _ => []
  | .error cause =>
    let l : Location := { workflow := w.name }
    [.of .unresolvedInputs (l.inField "inputs")
      s!"Workflow inputs schema does not resolve: {cause.message}"]

/-- What references are followed in. Inputs whose schema does not resolve may be anything. -/
def scope (c : Checker) (w : Workflow) (inputs : Except SchemaError Schema) : Scope :=
  ⟨c.ontology, w, c.settings.inputNamespace, inputs.toOption.getD .any⟩

/-- All findings about contracts, for the given steps of a workflow. -/
def contractFindings (c : Checker) (w : Workflow) (steps : List Step) : List Finding :=
  let inputs := c.inputsType w
  inputsFindings w inputs ++ steps.flatMap (c.scope w inputs).stepFindings

/-- The findings about a workflow without structural errors, beyond the structural ones. -/
def graphFindings (c : Checker) (w : Workflow) : List Finding :=
  let relations := c.relationFindings w
  let failed := Finding.failedSteps relations
  let contracts := c.contractFindings w (w.stepsExcept failed)
  let failed := failed ++ Finding.failedSteps contracts
  relations ++ contracts ++ c.policyFindings w (w.stepsExcept failed)

/-- A finding with the patch that repairs it, if there is one; the patch is then what the finding
suggests. -/
def repaired (r : CoercionRegistry) (authored : AuthoredWorkflow) (w : Workflow) (f : Finding) :
    Finding × Option Patch :=
  match r.patchFor authored w f with
  | .ok (some p) => ({ f with suggestion := some p.summary }, some p)
  | _ => (f, none)

/-- Findings with the patches that repair them. -/
def repairs (c : Checker) (e : CatalogEntry) (w : Workflow) (fs : List Finding) :
    List Finding × List Patch :=
  match c.registry, e.authored with
  | some r, some authored =>
    let pairs := fs.map (repaired r authored w)
    (pairs.map (·.1), pairs.filterMap (·.2))
  | _, _ => (fs, [])

/-- Whether some finding is a structural error. -/
def isHalting (fs : List Finding) : Bool :=
  fs.any fun f => f.level = .structural && f.isError

/-- Checks one workflow. -/
def check (c : Checker) (e : CatalogEntry) : WorkflowReport :=
  let structural := c.structureFindings e
  match e.graph with
  | some w =>
    if isHalting structural then .ofFindings e.name structural []
    else
      let (findings, patches) := c.repairs e w (structural ++ c.graphFindings w)
      .ofFindings e.name findings patches
  | none => .ofFindings e.name structural []

/-- Checks every workflow of a catalog. -/
def checkAll (c : Checker) (es : List CatalogEntry) : CatalogReport :=
  .ofReports (es.map c.check)

end Checker

end CapabilityFlow
