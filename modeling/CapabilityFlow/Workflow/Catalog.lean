import CapabilityFlow.Finding
import CapabilityFlow.Workflow.Graph

/-!
# Catalogs of workflows

A catalog holds one workflow, or several by name or in a list. `CatalogEntry.ofAuthored` checks the
structure of a workflow and builds its graph; a workflow with a structural finding has no graph.
-/

namespace CapabilityFlow

/-- Why a catalog is refused. -/
inductive CatalogError where
  /-- The text is no YAML. -/
  | yaml
  | notACatalog
deriving Repr, DecidableEq

def CatalogError.message : CatalogError → String
  | yaml => "Catalog is not valid YAML:"
  | notACatalog => "Catalog must be a mapping of workflow names to workflows"

/-- A workflow of a catalog. -/
structure CatalogEntry where
  name : String
  /-- What is written, unless the body is malformed. -/
  authored : Option AuthoredWorkflow
  /-- The graph, unless there is a finding. -/
  graph : Option Workflow
  /-- The structural findings, in the order of reports. -/
  findings : List Finding
deriving Repr, DecidableEq

/-! ## Structural checks -/

namespace AuthoredWorkflow

/-- The declared groups that have a usable join. -/
def usableGroups (w : AuthoredWorkflow) : Table Join :=
  w.groups.filterMap fun g => (g.2.join.bind Join.ofName?).map (g.1, ·)

/-- The findings about declared groups. -/
def groupFindings (w : AuthoredWorkflow) (name : String) : List Finding :=
  w.groups.filterMap fun (group, g) =>
    match g.join with
    | none => some (.of .groupWithoutJoin { workflow := name }
        s!"Parallel group '{group}' declares no join strategy")
    | some join =>
      if (Join.ofName? join).isSome then none
      else some (.of .groupWithoutJoin { workflow := name }
        (s!"Parallel group '{group}' has unknown join strategy '{join}'; " ++
          "expected all, any, first or merge"))

/-- The findings about a workflow without steps. -/
def emptyFindings (w : AuthoredWorkflow) (name : String) : List Finding :=
  if w.steps.isEmpty then [.of .missingField { workflow := name } "Workflow declares no steps"]
  else []

/-- The steps with their places. -/
def indexed (w : AuthoredWorkflow) : List (Nat × AuthoredStep) :=
  w.steps.zipIdx.map fun (s, i) => (i, s)

/-- The place of the first step with a label. -/
def labelIndex? (w : AuthoredWorkflow) (label : String) : Option Nat :=
  w.steps.findIdx? (·.label = some label)

/-- The findings about labels that are used before. -/
def labelFindings (w : AuthoredWorkflow) (name : String) : List Finding :=
  w.indexed.filterMap fun (i, s) => do
    let label ← s.label
    let first ← w.labelIndex? label
    if first < i then
      some (.of .duplicateStoreAs (.atStep name i label)
        s!"store_as '{label}' is already used by step {first}")
    else none

end AuthoredWorkflow

namespace AuthoredStep

/-- The place of a step, by its label if it has one. -/
def location (s : AuthoredStep) (name : String) (index : Nat) : Location :=
  { workflow := name, step := s.label, index := some index }

def capabilityFindings (s : AuthoredStep) (l : Location) : List Finding :=
  match s.capability with
  | none => [.of .missingField (l.inField "capability") "Step has no capability"]
  | some id =>
    if isWellFormedId id then []
    else [.of .malformedId (l.inField "capability")
      s!"Capability id '{id}' is not of the form [a-z][a-z0-9_-]*"]

def missingLabelFindings (s : AuthoredStep) (l : Location) : List Finding :=
  if s.label.isNone then [.of .missingField (l.inField "store_as") "Step has no store_as alias"]
  else []

/-- What a failed reading of a part of a step reports. -/
def syntaxFinding {α : Type} (l : Location) (field what : String) :
    Except ReferenceError α → Option Finding
  | .ok _ => none
  | .error e =>
    some (.of .bindingSyntax (l.inField field) (what ++ " does not parse: " ++ e.message))

def bindingFindings (s : AuthoredStep) (l : Location) : List Finding :=
  s.bindings.filterMap fun (field, v) =>
    syntaxFinding l field s!"Binding for '{field}'" (Binding.parse v)

def conditionFindings (s : AuthoredStep) (l : Location) : List Finding :=
  match s.condition with
  | none => []
  | some text => (syntaxFinding l "condition" "Condition" (Expression.parse text)).toList

def gateFindings (s : AuthoredStep) (l : Location) : List Finding :=
  s.gates.zipIdx.filterMap fun (g, i) =>
    syntaxFinding l s!"gates[{i}]" "Gate condition" (Expression.parse g.condition)

def groupFindings (s : AuthoredStep) (groups : Table Join) (l : Location) : List Finding :=
  match s.group with
  | none => []
  | some group =>
    if groups.has group then []
    else [.of .groupWithoutJoin (l.inField "parallel_group")
      s!"Parallel group '{group}' has no declared join strategy"]

/-- The finding about a loop without a usable bound. -/
def loopFinding? (target : String) (maxLoops : Option Nat) (cap : Nat) : Option String :=
  match maxLoops with
  | none => some s!"Recovery loop to '{target}' declares no max_loops"
  | some n =>
    if n = 0 then some s!"Recovery loop to '{target}' has max_loops 0"
    else if n > cap then
      some s!"Recovery loop to '{target}' allows {n} iterations; the cap is {cap}"
    else none

def failureFindings (s : AuthoredStep) (w : AuthoredWorkflow) (cap : Nat) (l : Location) :
    List Finding :=
  s.failures.zipIdx.flatMap fun (f, i) =>
    match f.goto with
    | none => []
    | some target =>
      let l := l.inField s!"failure_modes[{i}]"
      let unknown : List Finding :=
        if (w.labelIndex? target).isSome then []
        else [.of .unknownGotoTarget l s!"goto_step '{target}' names no step in this workflow"]
      unknown ++ ((loopFinding? target f.maxLoops cap).map (.of .unboundedLoop l ·)).toList

/-- The findings about one step, in the order in which its parts are checked. -/
def findings (s : AuthoredStep) (w : AuthoredWorkflow) (cap : Nat) (name : String) (index : Nat) :
    List Finding :=
  let l := s.location name index
  s.capabilityFindings l ++ s.missingLabelFindings l ++ s.bindingFindings l ++
    s.conditionFindings l ++ s.gateFindings l ++ s.groupFindings w.usableGroups l ++
    s.failureFindings w cap l

/-- The step of the graph. Parts that do not parse are left out. -/
def toStep (s : AuthoredStep) (index : Nat) : Step where
  index := index
  capability := s.capability.getD ""
  label := s.label.getD ""
  bindings := s.bindings.filterMap fun (field, v) => (Binding.parse v).toOption.map (field, ·)
  condition := s.condition.bind fun text => (Expression.parse text).toOption
  group := s.group
  gates := s.gates.filterMap fun g =>
    (Expression.parse g.condition).toOption.map fun e => ⟨e, g.action, g.message⟩
  failures := s.failures.map fun f => ⟨f.condition, f.action, f.recovery, f.goto, f.maxLoops⟩

end AuthoredStep

namespace AuthoredWorkflow

/-- All structural findings, in the order of reports. -/
def findings (w : AuthoredWorkflow) (cap : Nat) (name : String) : List Finding :=
  Finding.sort <|
    w.groupFindings name ++ w.emptyFindings name ++ w.labelFindings name ++
      w.indexed.flatMap fun (i, s) => s.findings w cap name i

/-- The graph of a workflow, unless two steps share a label. -/
def toGraph? (w : AuthoredWorkflow) (name : String) : Option Workflow := do
  let g ← (Workflow.ofSteps name (w.indexed.map fun (i, s) => s.toStep i)).toOption
  pure { g with
    version := w.version
    ontologyVersion := w.ontologyVersion
    risk := w.risk
    inputs := w.inputs
    groups := w.usableGroups }

end AuthoredWorkflow

namespace CatalogEntry

/-- The greatest number of passes that a loop may have. -/
def defaultLoopCap : Nat := 10

/-- Checks the structure of a workflow and builds its graph. -/
def ofAuthored (cap : Nat) (name : String) (w : AuthoredWorkflow) : CatalogEntry :=
  let findings := w.findings cap name
  ⟨name, some w, if findings.isEmpty then w.toGraph? name else none, findings⟩

/-- The entry of a workflow body. -/
def ofValue (cap : Nat) (name : String) (body : Value) : CatalogEntry :=
  match AuthoredWorkflow.decode body with
  | .ok w => ofAuthored cap name w
  | .error e =>
    ⟨name, none, none, [.of .malformedWorkflow { workflow := name }
      s!"Workflow body is malformed: {e.message}"]⟩

end CatalogEntry

/-! ## Catalogs -/

namespace Catalog

/-- Whether an entry of a catalog is a remark, and no workflow. -/
def isRemark : Value → Bool
  | .str _ | .int _ | .float _ | .bool _ => true
  | _ => false

/-- The bodies in a catalog with their names. A single workflow without a name takes the fallback,
and one in a list its place there. -/
def bodies (root : Value) (fallback : String) : Except CatalogError (List (String × Value)) :=
  let named (v : Value) (otherwise : String) := ((v.get? "name").bind Value.asStr?).getD otherwise
  match root with
  | .obj members =>
    if Table.has members "steps" then .ok [(named root fallback, root)]
    else
      match Table.get? members "workflows" with
      | some (.obj workflows) => .ok (workflows.filter (!isRemark ·.2))
      | some (.arr workflows) =>
        .ok ((workflows.zipIdx.map fun (v, i) => (named v s!"{fallback}[{i}]", v)).filter
          (!isRemark ·.2))
      | some _ => .error .notACatalog
      | none => .ok (members.filter (!isRemark ·.2))
  | _ => .error .notACatalog

/-- The workflows of a catalog. -/
def ofValue (cap : Nat) (root : Value) (fallback : String) :
    Except CatalogError (List CatalogEntry) :=
  (bodies root fallback).map (·.map fun (name, body) => CatalogEntry.ofValue cap name body)

/-- The workflows of a YAML text. -/
def ofText (cap : Nat) (text fallback : String) : Except CatalogError (List CatalogEntry) :=
  match Yaml.value? text with
  | some root => ofValue cap root fallback
  | none => .error .yaml

end Catalog

end CapabilityFlow
