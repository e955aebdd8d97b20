import CapabilityFlow.Check.Basic

/-!
# Relations between capabilities

The second level: what the edges of the ontology ask of the order of steps, and that mutations come
after a checkpoint. A required capability may be replaced by a direct alternative to it.
-/

namespace CapabilityFlow.Checker

/-- Whether a capability, or a direct alternative to it, runs before a step. -/
def isSatisfiedBefore (c : Checker) (w : Workflow) (s : Step) (wanted : String) : Bool :=
  let alternatives := c.ontology.alternatives wanted
  w.runsBefore s fun id => id = wanted || alternatives.contains id

/-- The neighbors of the capability of a step that do not run before it. -/
def unmet (c : Checker) (w : Workflow) (s : Step) (kind : EdgeKind) : List String :=
  (c.ontology.neighbors s.capability kind).filter (!c.isSatisfiedBefore w s ·)

/-- The alternatives to a capability, as a remark. -/
def alternativesRemark (c : Checker) (id : String) : String :=
  match c.ontology.alternatives id with
  | [] => ""
  | alternatives => " (or " ++ ", ".intercalate alternatives ++ ")"

def requirementFindings (c : Checker) (w : Workflow) (s : Step) : List Finding :=
  (c.unmet w s .requires).map fun id =>
    .of .requirementUnmet (w.location s)
      (s!"Capability '{s.capability}' requires '{id}'{c.alternativesRemark id}, " ++
        "which does not run earlier")

def softRequirementFindings (c : Checker) (w : Workflow) (s : Step) : List Finding :=
  (c.unmet w s .softRequires).map fun id =>
    .of .softRequirementUnmet (w.location s)
      s!"Capability '{s.capability}' works best after '{id}', which does not run earlier"

/-- The checkpoint to suggest. -/
def suggestedCheckpoint (c : Checker) : String :=
  c.settings.checkpoints.head?.getD "checkpoint"

def checkpointFindings (c : Checker) (w : Workflow) (s : Step) (cap : Capability) : List Finding :=
  if cap.mutation && !w.runsBefore s c.settings.isCheckpoint then
    [{ Finding.of .mutationWithoutCheckpoint (w.location s)
        s!"Mutating capability '{s.capability}' runs without an earlier checkpoint" with
      severity := if c.settings.strictCheckpoints then .error
        else Code.mutationWithoutCheckpoint.defaultSeverity
      suggestion := some s!"Insert a '{c.suggestedCheckpoint}' step before '{s.label}'" }]
  else []

/-- What a step needs before it. -/
def predecessorFindings (c : Checker) (w : Workflow) (s : Step) : List Finding :=
  match c.ontology.get? s.capability with
  | none => []
  | some cap =>
    c.requirementFindings w s ++ c.softRequirementFindings w s ++ c.checkpointFindings w s cap

/-- The pairs of conflicting steps, each found at its later step. -/
def conflictFindings (c : Checker) (w : Workflow) : List Finding :=
  w.steps.zipIdx.flatMap fun (later, j) =>
    ((w.steps.take j).filter fun s => c.ontology.conflicts s.capability later.capability).map
      fun earlier =>
        .of .conflictingCapabilities (w.location later)
          (s!"Capability '{later.capability}' conflicts with '{earlier.capability}' " ++
            s!"used by step '{earlier.label}'")

/-- The finding about two steps of which the first has to run before the second, and does not. -/
def orderFinding? (w : Workflow) (a b : Step) : Option Finding :=
  let concurrent := a.isSibling b
  if a.index = b.index || (a.index < b.index && !concurrent) then none
  else
    let relation := if concurrent then "runs concurrently with" else "runs after"
    some (.of .orderingViolation (w.location (if b.index < a.index then a else b))
      (s!"'{a.capability}' must precede '{b.capability}', " ++
        s!"but step '{a.label}' {relation} step '{b.label}'"))

def orderingFindings (c : Checker) (w : Workflow) : List Finding :=
  c.ontology.orderings.flatMap fun (first, second) =>
    (w.steps.filter (·.capability = first)).flatMap fun a =>
      (w.steps.filter (·.capability = second)).filterMap (orderFinding? w a)

/-- All findings about the relations between the capabilities of a workflow. -/
def relationFindings (c : Checker) (w : Workflow) : List Finding :=
  w.steps.flatMap (c.predecessorFindings w) ++ c.conflictFindings w ++ c.orderingFindings w

end CapabilityFlow.Checker
