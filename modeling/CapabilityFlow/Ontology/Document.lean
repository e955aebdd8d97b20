import CapabilityFlow.Ontology.Capability
import CapabilityFlow.Ontology.Edge

/-!
# Ontology documents

What an ontology document declares, before its schemas are resolved and its edges are checked.
-/

namespace CapabilityFlow

/-- A capability as it is declared. -/
structure CapabilityDeclaration where
  id : String
  layer : Layer
  risk : Risk
  mutation : Bool
  requiresApproval : Bool
  description : String
  inputSchema : Value
  outputSchema : Value
deriving Repr, DecidableEq

namespace CapabilityDeclaration

/-- The fields of a declaration read so far. -/
structure Draft where
  id : Option String := none
  layer : Option Layer := none
  risk : Option Risk := none
  mutation : Option Bool := none
  requiresApproval : Option Bool := none
  description : Option String := none
  inputSchema : Option Value := none
  outputSchema : Option Value := none

/-- Reads one member; the schemas have a second name each. -/
def Draft.put (d : Draft) (name : String) (v : Value) : Except DecodeError Draft :=
  match name with
  | "id" => do pure { d with id := ← Decode.once name d.id Decode.string v }
  | "layer" => do pure { d with layer := ← Decode.once name d.layer Layer.decode v }
  | "risk" => do pure { d with risk := ← Decode.once name d.risk Risk.decode v }
  | "mutation" => do pure { d with mutation := ← Decode.once name d.mutation Decode.bool v }
  | "requires_approval" => do
    pure { d with requiresApproval := ← Decode.once name d.requiresApproval Decode.bool v }
  | "description" => do
    pure { d with description := ← Decode.once name d.description Decode.string v }
  | "input_schema" | "input_schema_ref" => do
    pure { d with inputSchema := ← Decode.once "input_schema" d.inputSchema Decode.value v }
  | "output_schema" | "output_schema_ref" => do
    pure { d with outputSchema := ← Decode.once "output_schema" d.outputSchema Decode.value v }
  | _ => .ok d

/-- A schema that is not declared constrains nothing. -/
def noSchema : Value := .obj []

/-- A declaration is a record, or the list of its fields. -/
def decode : Decode.Reader CapabilityDeclaration
  | .obj ms => do
    let d ← Decode.members Draft.put {} ms
    pure {
      id := ← Decode.required "id" d.id
      layer := ← Decode.required "layer" d.layer
      risk := d.risk.getD .low
      mutation := d.mutation.getD false
      requiresApproval := d.requiresApproval.getD false
      description := d.description.getD ""
      inputSchema := d.inputSchema.getD noSchema
      outputSchema := d.outputSchema.getD noSchema }
  | .arr items => do
    let expected := "struct CapabilityDocument with 8 elements"
    let id ← Decode.item items 0 expected Decode.string
    let layer ← Decode.item items 1 expected Layer.decode
    let risk ← Decode.itemOr items 2 .low Risk.decode
    let mutation ← Decode.itemOr items 3 false Decode.bool
    let requiresApproval ← Decode.itemOr items 4 false Decode.bool
    let description ← Decode.itemOr items 5 "" Decode.string
    let inputSchema ← Decode.itemOr items 6 noSchema Decode.value
    let outputSchema ← Decode.itemOr items 7 noSchema Decode.value
    Decode.atMost items 8
    pure { id, layer, risk, mutation, requiresApproval, description, inputSchema, outputSchema }
  | v => .error (.invalidType v "struct CapabilityDocument")

end CapabilityDeclaration

/-- An ontology as it is declared. -/
structure OntologyDeclaration where
  version : String
  capabilities : List CapabilityDeclaration
  edges : List Edge
deriving Repr, DecidableEq

namespace OntologyDeclaration

/-- The fields of a declaration read so far. -/
structure Draft where
  version : Option String := none
  capabilities : Option (List CapabilityDeclaration) := none
  edges : Option (List Edge) := none

/-- Reads one member; `capabilities` is another name of `nodes`. -/
def Draft.put (d : Draft) (name : String) (v : Value) : Except DecodeError Draft :=
  match name with
  | "version" => do pure { d with version := ← Decode.once name d.version Decode.string v }
  | "nodes" | "capabilities" => do
    let read := Decode.list CapabilityDeclaration.decode
    pure { d with capabilities := ← Decode.once "nodes" d.capabilities read v }
  | "edges" => do pure { d with edges := ← Decode.once name d.edges (Decode.list Edge.decode) v }
  | _ => .ok d

/-- The version of an ontology that declares none. -/
def defaultVersion : String := "1.0.0"

/-- A declaration is a record, or the list of its fields. -/
def decode : Decode.Reader OntologyDeclaration
  | .obj ms => do
    let d ← Decode.members Draft.put {} ms
    pure {
      version := d.version.getD defaultVersion
      capabilities := ← Decode.required "nodes" d.capabilities
      edges := d.edges.getD [] }
  | .arr items => do
    let version ← Decode.itemOr items 0 defaultVersion Decode.string
    let capabilities ← Decode.item items 1 "struct OntologyDocument with 3 elements"
      (Decode.list CapabilityDeclaration.decode)
    let edges ← Decode.itemOr items 2 [] (Decode.list Edge.decode)
    Decode.atMost items 3
    pure { version, capabilities, edges }
  | v => .error (.invalidType v "struct OntologyDocument")

end OntologyDeclaration

end CapabilityFlow
