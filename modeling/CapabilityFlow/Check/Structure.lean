import CapabilityFlow.Check.Basic
import CapabilityFlow.Workflow.Catalog

/-!
# Structure

What the first level adds to the findings of reading a catalog: the capabilities that the ontology
does not know, and workflows made for another version of it.
-/

namespace CapabilityFlow.Checker

/-- The place of a step as it is written. -/
def authoredLocation (name : String) (index : Nat) (s : AuthoredStep) : Location :=
  match s.label with
  | some label => .atStep name index label
  | none => { workflow := name, index := some index }

/-- The steps whose capability has a well-formed name that the ontology does not know. -/
def capabilityFindings (c : Checker) (e : CatalogEntry) : List Finding :=
  let steps := (e.authored.map (·.steps)).getD []
  steps.zipIdx.filterMap fun (s, i) => do
    let id ← s.capability
    if isWellFormedId id && !c.ontology.contains id then
      some (.of .unknownCapability ((authoredLocation e.name i s).inField "capability")
        s!"Capability '{id}' is not in the ontology")
    else none

/-- Why a declared version of the ontology does not fit, if it does not. -/
def versionFault? (c : Checker) (declared : String) : Option String :=
  match c.ontology.version.agreesWith declared with
  | .ok true => none
  | .ok false =>
    let loaded := c.ontology.version.text
    some s!"Workflow targets ontology {declared} but the loaded ontology is {loaded}"
  | .error cause => some s!"Ontology version '{declared}' is not a version: {cause.message}"

/-- How grave another version of the ontology is. -/
def versionSeverity (c : Checker) : Severity :=
  match c.settings.versionRule with
  | .refuse => .error
  | .warn => .warning

/-- The finding about a workflow made for another version of the ontology. -/
def versionFinding? (c : Checker) (e : CatalogEntry) : Option Finding := do
  let declared ← (← e.authored).ontologyVersion
  let fault ← c.versionFault? declared
  let l : Location := { workflow := e.name }
  pure { Finding.of .incompatibleVersion (l.inField "ontology_version") fault with
    severity := c.versionSeverity }

/-- All structural findings about a workflow. -/
def structureFindings (c : Checker) (e : CatalogEntry) : List Finding :=
  e.findings ++ c.capabilityFindings e ++ (c.versionFinding? e).toList

end CapabilityFlow.Checker
