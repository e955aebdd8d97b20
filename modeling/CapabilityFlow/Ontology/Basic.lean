import CapabilityFlow.Ontology.Document
import CapabilityFlow.Schema.Resolver
import CapabilityFlow.Version
import CapabilityFlow.Yaml.Resolution

/-!
# Ontologies

An `Ontology` holds capabilities with resolved schemas and the edges between them. `Ontology.build`
accepts exactly well-formed ones: identifiers are well formed and distinct, edges join capabilities
that are there, symmetric edges have their reverse, and the `requires` edges have no cycle.
-/

namespace CapabilityFlow

/-- A side of a capability. -/
inductive SchemaSide where
  | input
  | output
deriving DecidableEq, Repr

def SchemaSide.name : SchemaSide → String
  | input => "input"
  | output => "output"

/-- Why an ontology is refused. -/
inductive OntologyError where
  /-- The text is no YAML. -/
  | parse
  | document (cause : DecodeError)
  | invalidVersion (version : String) (cause : VersionError)
  | duplicateCapability (id : String)
  | malformedId (id : String)
  | unknownEndpoint (edge : Edge) (missing : String)
  | asymmetricEdge (edge : Edge)
  /-- The identifiers along the cycle; the last is the first again. -/
  | requiresCycle (ids : List String)
  | schema (capability : String) (side : SchemaSide) (cause : SchemaError)
deriving DecidableEq, Repr

namespace OntologyError

def message : OntologyError → String
  | parse => "Failed to parse ontology document:"
  | document cause => s!"Ontology document does not match the expected shape: {cause.message}"
  | invalidVersion version cause => s!"Invalid ontology version '{version}': {cause.message}"
  | duplicateCapability id => s!"Duplicate capability id: {id}"
  | malformedId id => s!"Malformed capability id: '{id}'"
  | unknownEndpoint edge missing => s!"Edge {edge.text} references unknown capability '{missing}'"
  | asymmetricEdge edge => s!"Symmetric edge {edge.text} has no reverse edge"
  | requiresCycle ids => "Cycle in requires edges: " ++ " -> ".intercalate ids
  | schema capability side cause =>
    s!"Cannot resolve {side.name} schema of capability '{capability}': {cause.message}"

/-- The message of the error behind an error, if there is one. -/
def cause? : OntologyError → Option String
  | document cause => some cause.message
  | invalidVersion _ cause => some cause.message
  | schema _ _ cause => some cause.message
  | _ => none

end OntologyError

/-- Capabilities and the edges between them, each in the order of declaration. -/
structure Ontology where
  version : Version
  capabilities : List Capability
  edges : List Edge
deriving Repr, Inhabited

namespace Ontology

/-! ## Queries -/

def get? (o : Ontology) (id : String) : Option Capability :=
  o.capabilities.find? (·.id = id)

def contains (o : Ontology) (id : String) : Bool :=
  o.capabilities.any (·.id = id)

def size (o : Ontology) : Nat :=
  o.capabilities.length

/-- Texts in increasing order. -/
def sorted (names : List String) : List String :=
  names.mergeSort fun a b => !(b < a)

/-- The identifiers in increasing order. -/
def ids (o : Ontology) : List String :=
  sorted (o.capabilities.map (·.id))

/-- The targets of the edges of a kind that leave a capability. -/
def neighbors (o : Ontology) (id : String) (kind : EdgeKind) : List String :=
  (o.edges.filter fun e => e.source = id && e.kind = kind).map (·.target)

/-- The capabilities that can stand in for another. -/
def alternatives (o : Ontology) (id : String) : List String :=
  o.neighbors id .alternativeTo

/-- Whether two capabilities are not to run in one workflow. -/
def conflicts (o : Ontology) (a b : String) : Bool :=
  (o.neighbors a .conflictsWith).contains b

/-- The order of pairs of texts. -/
def pairLt (a b : String × String) : Bool :=
  a.1 < b.1 || (a.1 = b.1 && a.2 < b.2)

/-- The distinct pairs of a capability and one that has to come later, in increasing order. -/
def orderings (o : Ontology) : List (String × String) :=
  ((o.edges.filterMap Edge.ordering?).mergeSort fun a b => !pairLt b a).eraseDups

/-- How many capabilities each layer has, for those that have any. -/
def layerCounts (o : Ontology) : List (Layer × Nat) :=
  (Layer.all.map fun l => (l, o.capabilities.countP (·.layer = l))).filter (·.2 ≠ 0)

/-- How many edges each kind has, for those that have any. -/
def edgeCounts (o : Ontology) : List (EdgeKind × Nat) :=
  (EdgeKind.all.map fun k => (k, o.edges.countP (·.kind = k))).filter (·.2 ≠ 0)

/-! ## Validation -/

/-- Checks that identifiers are well formed and distinct; `seen` holds those before. -/
def checkIds (seen : List String) : List Capability → Except OntologyError Unit
  | [] => .ok ()
  | c :: rest =>
    if !isWellFormedId c.id then .error (.malformedId c.id)
    else if seen.contains c.id then .error (.duplicateCapability c.id)
    else checkIds (c.id :: seen) rest

/-- Checks one edge against the capabilities and the other edges. -/
def checkEdge (o : Ontology) (e : Edge) : Except OntologyError Unit :=
  if !o.contains e.source then .error (.unknownEndpoint e e.source)
  else if !o.contains e.target then .error (.unknownEndpoint e e.target)
  else if e.kind.isSymmetric && !o.edges.contains e.reversed then .error (.asymmetricEdge e)
  else .ok ()

/-- Searches what a capability requires, depth first. `path` holds the capabilities that are being
searched, and `done` those from which no cycle can be reached. Gives a cycle, or what is done
afterwards; `fuel` is the number of capabilities that are not on the path. -/
def searchCycle (o : Ontology) (fuel : Nat) (path done : List String) (id : String) :
    Except (List String) (List String) :=
  if done.contains id then .ok done
  else if path.contains id then .error (path.dropWhile (· != id) ++ [id])
  else
    match fuel with
    | 0 => .ok done
    | fuel + 1 => do
      let targets := sorted (o.neighbors id .requires)
      let done ← targets.foldlM (fun done t => searchCycle o fuel (path ++ [id]) done t) done
      pure (id :: done)

/-- A cycle of `requires` edges: the first that a search from each capability in turn meets. -/
def requiresCycle? (o : Ontology) : Option (List String) :=
  match o.ids.foldlM (fun done id => searchCycle o o.size [] done id) [] with
  | .error ids => some ids
  | .ok _ => none

/-- The ontology of given capabilities and edges, when it is well formed. -/
def build (version : Version) (capabilities : List Capability) (edges : List Edge) :
    Except OntologyError Ontology := do
  checkIds [] capabilities
  let o : Ontology := ⟨version, capabilities, edges⟩
  edges.forM (checkEdge o)
  match o.requiresCycle? with
  | some ids => .error (.requiresCycle ids)
  | none => .ok o

/-! ## From documents -/

/-- Resolves one side of a declared capability. -/
def resolveSide (id : String) (side : SchemaSide) (raw : Value) :
    StateT Resolver (Except OntologyError) Schema := fun r =>
  match r.resolve raw with
  | (.ok s, r) => .ok (s, r)
  | (.error e, _) => .error (.schema id side e)

/-- Resolves the schemas of a declared capability. -/
def resolveCapability (d : CapabilityDeclaration) :
    StateT Resolver (Except OntologyError) Capability := do
  let input ← resolveSide d.id .input d.inputSchema
  let output ← resolveSide d.id .output d.outputSchema
  pure {
    id := d.id
    layer := d.layer
    risk := d.risk
    mutation := d.mutation
    requiresApproval := d.requiresApproval
    description := d.description
    inputDeclared := d.inputSchema
    outputDeclared := d.outputSchema
    input := input
    output := output }

/-- The ontology that a document declares. Its schemas may refer to the document itself and to the
named ones. -/
def ofValue (root : Value) (maxDepth : Nat) (documents : List (String × Value)) :
    Except OntologyError Ontology := do
  let d ← (OntologyDeclaration.decode root).mapError .document
  let own : Library := { Library.ofRoot root with maxDepth }
  let lib := documents.foldl (fun lib p => lib.addDocument p.1 p.2) own
  let version ← (Version.parse d.version).mapError (.invalidVersion d.version ·)
  let (capabilities, _) ← (d.capabilities.mapM resolveCapability).run (Resolver.ofLibrary lib)
  build version capabilities d.edges

/-- The ontology that a YAML text declares. -/
def ofText (text : String) (maxDepth : Nat) (documents : List (String × Value)) :
    Except OntologyError Ontology :=
  match Yaml.value? text with
  | some root => ofValue root maxDepth documents
  | none => .error .parse

end Ontology

end CapabilityFlow
