import CapabilityFlow.Ontology.Basic
import CapabilityFlow.Schema.Compatibility
import CapabilityFlow.Schema.Path
import CapabilityFlow.Yaml.Shape

/-!
# Coercions

A coercion names the capability that turns values of one type into values of another. A
`CoercionRegistry` holds at most one for each pair of type texts; the first that is registered
stays.
-/

namespace CapabilityFlow

/-- A coercion as it is declared. -/
structure CoercionDeclaration where
  source : String
  target : String
  capability : String
  inputField : String
  outputField : String
  /-- Bindings of the step that performs the coercion, in increasing order of their names. -/
  params : Table Value
  description : String
deriving Repr, DecidableEq

/-- Sets a name in a table kept in increasing order of names. -/
def Table.setSorted {α : Type} (t : Table α) (name : String) (v : α) : Table α :=
  match t with
  | [] => [(name, v)]
  | (k, w) :: rest =>
    if name < k then (name, v) :: (k, w) :: rest
    else if name = k then (k, v) :: rest
    else (k, w) :: Table.setSorted rest name v

namespace CoercionDeclaration

/-- The fields of a declaration read so far. -/
structure Draft where
  source : Option String := none
  target : Option String := none
  capability : Option String := none
  inputField : Option String := none
  outputField : Option String := none
  params : Option (Table Value) := none
  description : Option String := none

/-- Parameters in increasing order of their names. -/
def decodeParams : Decode.Reader (Table Value) := fun v =>
  (Decode.table Decode.value v).map fun t => t.foldl (fun t p => t.setSorted p.1 p.2) []

/-- Reads one member; `transform` is another name of `capability`. -/
def Draft.put (d : Draft) (name : String) (v : Value) : Except DecodeError Draft :=
  match name with
  | "from" => do pure { d with source := ← Decode.once name d.source Decode.string v }
  | "to" => do pure { d with target := ← Decode.once name d.target Decode.string v }
  | "capability" | "transform" => do
    pure { d with capability := ← Decode.once "capability" d.capability Decode.string v }
  | "input_field" => do
    pure { d with inputField := ← Decode.once name d.inputField Decode.string v }
  | "output_field" => do
    pure { d with outputField := ← Decode.once name d.outputField Decode.string v }
  | "params" => do pure { d with params := ← Decode.once name d.params decodeParams v }
  | "description" => do
    pure { d with description := ← Decode.once name d.description Decode.string v }
  | _ => .ok d

/-- The input field of a coercion that names none. -/
def defaultInputField : String := "source"

/-- The output field of a coercion that names none. -/
def defaultOutputField : String := "result"

/-- A declaration is a record, or the list of its fields. -/
def decode : Decode.Reader CoercionDeclaration
  | .obj ms => do
    let d ← Decode.members Draft.put {} ms
    pure {
      source := ← Decode.required "from" d.source
      target := ← Decode.required "to" d.target
      capability := ← Decode.required "capability" d.capability
      inputField := d.inputField.getD defaultInputField
      outputField := d.outputField.getD defaultOutputField
      params := d.params.getD []
      description := d.description.getD "" }
  | .arr items => do
    let expected := "struct CoercionDocument with 7 elements"
    let source ← Decode.item items 0 expected Decode.string
    let target ← Decode.item items 1 expected Decode.string
    let capability ← Decode.item items 2 expected Decode.string
    let inputField ← Decode.itemOr items 3 defaultInputField Decode.string
    let outputField ← Decode.itemOr items 4 defaultOutputField Decode.string
    let params ← Decode.itemOr items 5 [] decodeParams
    let description ← Decode.itemOr items 6 "" Decode.string
    Decode.atMost items 7
    pure { source, target, capability, inputField, outputField, params, description }
  | v => .error (.invalidType v "struct CoercionDocument")

end CoercionDeclaration

/-- A registered coercion. -/
structure Coercion where
  source : Schema
  target : Schema
  capability : String
  inputField : String
  outputField : String
  params : Table Value
  description : String
deriving Repr, DecidableEq

/-- Why a registry is refused. The pair of types is given by their texts. -/
inductive RegistryError where
  /-- The text is no YAML, or declares no registry. -/
  | parse
  | invalidType (source target : String) (cause : TypeTextError)
  | duplicate (source target : String)
  | unknownCapability (source target capability : String)
  | incompatibleField (source target capability field declared : String)
deriving DecidableEq, Repr

namespace RegistryError

def message : RegistryError → String
  | parse => "Failed to parse coercion registry:"
  | invalidType source target cause =>
    s!"Invalid type in coercion {source} -> {target}: {cause.message}"
  | duplicate source target => s!"Duplicate coercion {source} -> {target}"
  | unknownCapability source target capability =>
    s!"Coercion {source} -> {target} names unknown capability '{capability}'"
  | incompatibleField source target capability field declared =>
    s!"Coercion {source} -> {target} does not fit field '{field}' of capability '{capability}' " ++
      s!"({declared})"

/-- The message of the error behind an error, if there is one. -/
def cause? : RegistryError → Option String
  | invalidType _ _ cause => some cause.message
  | _ => none

end RegistryError

namespace CoercionDeclaration

/-- The type that one of the two texts of a declaration writes. -/
def readType (d : CoercionDeclaration) (text : String) : Except RegistryError Schema :=
  (TypeText.parse text).mapError (.invalidType d.source d.target ·)

/-- The coercion that is declared, between two types. -/
def between (d : CoercionDeclaration) (source target : Schema) : Coercion where
  source
  target
  capability := d.capability
  inputField := d.inputField
  outputField := d.outputField
  params := d.params
  description := d.description

end CoercionDeclaration

/-- Coercions by the texts of their types, in increasing order of the pairs of texts. -/
structure CoercionRegistry where
  rules : List ((String × String) × Coercion)
deriving Repr, DecidableEq

namespace CoercionRegistry

def empty : CoercionRegistry := ⟨[]⟩

def size (r : CoercionRegistry) : Nat :=
  r.rules.length

/-- The coercion of a pair of type texts. -/
def lookupText? (r : CoercionRegistry) (found expected : String) : Option Coercion :=
  r.rules.lookup (found, expected)

/-- The coercion from one type to another. -/
def lookup? (r : CoercionRegistry) (found expected : Schema) : Option Coercion :=
  r.lookupText? found.text expected.text

/-- Inserts a rule before the first of a greater key. -/
def insertRule (key : String × String) (c : Coercion) :
    List ((String × String) × Coercion) → List ((String × String) × Coercion)
  | [] => [(key, c)]
  | p :: rest =>
    if Ontology.pairLt key p.1 then (key, c) :: p :: rest else p :: insertRule key c rest

/-- A change of a registry, which may fail on the way. -/
abbrev Registering := ExceptT RegistryError (StateM CoercionRegistry)

/-- Enters a coercion for a pair of types that has none. -/
def enter (d : CoercionDeclaration) : Registering Unit := do
  let source ← d.readType d.source
  let target ← d.readType d.target
  let key := (source.text, target.text)
  if ((← get).rules.lookup key).isSome then throw (.duplicate key.1 key.2)
  modify fun r => ⟨insertRule key (d.between source target) r.rules⟩

/-- The registry in which a coercion is entered. -/
def register (r : CoercionRegistry) (d : CoercionDeclaration) :
    Except RegistryError CoercionRegistry :=
  match (enter d).run r with
  | (.ok (), r') => .ok r'
  | (.error e, _) => .error e

/-- Checks one coercion: its capability is there, the input field takes the source type, and the
output field can carry the target type. -/
def checkRule (o : Ontology) (key : String × String) (c : Coercion) : Except RegistryError Unit :=
  match o.get? c.capability with
  | none => .error (.unknownCapability key.1 key.2 c.capability)
  | some cap => do
    let misfit (field declared : String) : RegistryError :=
      .incompatibleField key.1 key.2 c.capability field declared
    let input ←
      (cap.input.walk [.field c.inputField]).mapError fun e => misfit c.inputField e.message
    if !input.accepts c.source then throw (misfit c.inputField input.text)
    let output ←
      (cap.output.walk [.field c.outputField]).mapError fun e => misfit c.outputField e.message
    if !output.admits c.target then throw (misfit c.outputField output.text)

/-- Checks every coercion against an ontology, in the order of the registry. -/
def validate (r : CoercionRegistry) (o : Ontology) : Except RegistryError Unit :=
  r.rules.forM fun p => checkRule o p.1 p.2

/-- The registry of declared coercions. -/
def ofDeclarations (ds : List CoercionDeclaration) : Except RegistryError CoercionRegistry :=
  ds.foldlM register empty

/-! ## From texts -/

/-- What a registry text holds. -/
def shape : Yaml.Shape :=
  let coercion : Yaml.Shape := .record
    [("from", .text), ("to", .text), ("capability", .text), ("transform", .text),
      ("input_field", .text), ("output_field", .text), ("params", .table .any),
      ("description", .text)] false
  .record [("coercions", .list coercion)] false

/-- The coercions that a registry document declares, if it declares any. -/
def decodeDeclarations (v : Value) : Except DecodeError (List CoercionDeclaration) :=
  let put (ds : Option (List CoercionDeclaration)) (name : String) (v : Value) :=
    if name = "coercions" then Decode.once name ds (Decode.list CoercionDeclaration.decode) v
    else .ok ds
  match v with
  | .obj ms => (Decode.members put none ms).map (·.getD [])
  | v => .error (.invalidType v "struct RegistryDocument")

/-- The registry that a YAML text declares. -/
def ofText (text : String) : Except RegistryError CoercionRegistry :=
  match Yaml.shapedValue? shape text with
  | none => .error .parse
  | some v =>
    match decodeDeclarations v with
    | .error _ => .error .parse
    | .ok ds => ofDeclarations ds

end CoercionRegistry

end CapabilityFlow
