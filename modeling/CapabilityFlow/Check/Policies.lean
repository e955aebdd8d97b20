import CapabilityFlow.Check.Basic

/-!
# Policies

The fourth level: safeguards before data is sent, gates where approval is asked for, and a declared
risk that covers the steps. It only warns.
-/

namespace CapabilityFlow.Checker

/-- The safeguards in words. -/
def safeguardChoice (c : Checker) : String :=
  " or ".intercalate c.settings.safeguards

def sendFindings (c : Checker) (w : Workflow) (s : Step) : List Finding :=
  if c.settings.isSend s.capability && !w.runsBefore s c.settings.isSafeguard then
    [{ Finding.of .sendWithoutSafeguard (w.location s)
        s!"Step '{s.label}' sends data without an earlier {c.safeguardChoice} step" with
      suggestion := some s!"Add a {c.safeguardChoice} step before '{s.label}'" }]
  else []

def approvalFindings (w : Workflow) (s : Step) (cap : Capability) : List Finding :=
  if cap.requiresApproval && s.gates.isEmpty then
    [.of .approvalWithoutGate (w.location s)
      s!"Capability '{s.capability}' requires approval but step '{s.label}' declares no gate"]
  else []

def safetyFindings (c : Checker) (w : Workflow) (s : Step) : List Finding :=
  match c.ontology.get? s.capability with
  | none => []
  | some cap => c.sendFindings w s ++ approvalFindings w s cap

/-- The risk of the capability of a step. -/
def stepRisk? (c : Checker) (s : Step) : Option Risk :=
  (c.ontology.get? s.capability).map (·.risk)

/-- The higher of two risks. -/
def higher (a b : Risk) : Risk :=
  if a.rank ≤ b.rank then b else a

/-- The finding about a declared risk below that of some step, at the first such step. -/
def riskFinding? (c : Checker) (w : Workflow) (steps : List Step) : Option Finding := do
  let declared ← w.risk
  let rated := steps.filterMap fun s => (c.stepRisk? s).map (s, ·)
  let (s, risk) ← rated.find? fun p => declared.rank < p.2.rank
  let highest := (rated.map (·.2)).foldl higher risk
  pure { Finding.of .understatedRisk (w.location s)
      (s!"Workflow declares risk {declared.name} but step '{s.label}' runs " ++
        s!"a {risk.name}-risk capability") with
    suggestion := some s!"Declare the workflow risk as {highest.name}" }

/-- All findings about policies, for the given steps of a workflow. -/
def policyFindings (c : Checker) (w : Workflow) (steps : List Step) : List Finding :=
  steps.flatMap (c.safetyFindings w) ++ (c.riskFinding? w steps).toList

end CapabilityFlow.Checker
