import CapabilityFlow.Schema.TypeText
import CapabilityFlow.Value.Json
import CapabilityFlow.Value.Pointer

/-!
# Resolving raw schemas

A raw schema is a value in the manner of JSON Schema. `Resolver.resolve` turns it into a `Schema`,
following every `$ref` into the documents of a `Library`. The references that are being followed
form a chain: one that is already in it is a cycle, and a chain longer than the library allows is
an error. Resolved references are remembered, also those inside a resolution that fails.
-/

namespace CapabilityFlow

/-- Where a reference leads: a pointer into a document. -/
structure Target where
  document : String
  pointer : String
deriving DecidableEq, Repr

namespace Target

def text (t : Target) : String :=
  t.document ++ "#" ++ t.pointer

/-- The target of a reference that stands in a document. A reference without a number sign names a
whole document, and one without a name stays in its own. -/
def ofReference (document reference : String) : Target :=
  let cs := reference.toList
  let name := cs.takeWhile (· != '#')
  match cs.dropWhile (· != '#') with
  | [] => ⟨reference, ""⟩
  | _ :: pointer => ⟨if name.isEmpty then document else String.ofList name, String.ofList pointer⟩

end Target

/-- Why a raw schema does not resolve. -/
inductive SchemaError where
  | unresolvedPointer (reference : String)
  | unknownDocument (document reference : String)
  /-- The targets of the chain from the first occurrence of the repeated one to the second. -/
  | cycle (chain : List Target)
  | depthExceeded (reference : String) (limit : Nat)
  | invalidType (value reason : String)
  | incompatibleAllOf (arms : List String)
  | malformed (what : String)
deriving DecidableEq, Repr

def SchemaError.message : SchemaError → String
  | unresolvedPointer reference => s!"Unresolved schema pointer: '{reference}'"
  | unknownDocument document reference =>
    s!"Unknown schema document '{document}' in reference '{reference}'"
  | cycle chain => "Schema reference cycle: " ++ " -> ".intercalate (chain.map Target.text)
  | depthExceeded reference limit =>
    s!"Schema reference depth exceeded {limit} while resolving '{reference}'"
  | invalidType value reason => s!"Invalid type '{value}': {reason}"
  | incompatibleAllOf arms => "allOf arms cannot be merged: " ++ ", ".intercalate arms
  | malformed what => s!"Malformed schema: {what}"

/-- The documents that references lead into, and the bound on nested references. -/
structure Library where
  documents : Table Value
  maxDepth : Nat
deriving Repr

namespace Library

/-- The name of the document in which raw schemas stand. -/
def rootName : String := ""

def defaultMaxDepth : Nat := 32

/-- The library of one document. -/
def ofRoot (root : Value) : Library := ⟨[(rootName, root)], defaultMaxDepth⟩

/-- Adds a document, or replaces the one of the same name. -/
def addDocument (lib : Library) (name : String) (document : Value) : Library :=
  { lib with documents := lib.documents.set name document }

/-- The raw schema that a target selects; the reference is the one to blame. -/
def find (lib : Library) (target : Target) (reference : String) : Except SchemaError Value :=
  match lib.documents.get? target.document with
  | none => .error (.unknownDocument target.document reference)
  | some root =>
    match root.pointed? target.pointer with
    | none => .error (.unresolvedPointer reference)
    | some raw => .ok raw

end Library

/-- The targets resolved so far, with their schemas. -/
abbrev Resolved := List (Target × Schema)

/-- A computation that may fail and remembers resolved targets in either case. -/
abbrev Resolving := ExceptT SchemaError (StateM Resolved)

namespace Resolving

/-! ## Parts of a raw schema that hold no references -/

/-- The schema of a type expression. -/
def ofText (text : String) : Except SchemaError Schema :=
  match TypeText.parse text with
  | .ok s => .ok s
  | .error e => .error (.invalidType text e.message)

/-- The type of each value of an enumeration, kept once. -/
def ofEnum : Value → Except SchemaError Schema
  | .arr values =>
    let arms := values.foldl
      (fun arms v =>
        let s := Schema.ofValue v
        if arms.any (s.same ·) then arms else arms ++ [s])
      []
    if arms.isEmpty then .error (.malformed "enum must not be empty") else .ok (Schema.ofArms arms)
  | _ => .error (.malformed "enum must be a list")

/-- The fields of two objects, the first object's where both declare one. -/
def mergeFields (fields more : Table Schema) : Table Schema :=
  more.foldl (fun fields f => if fields.has f.1 then fields else fields ++ [f]) fields

/-- All given objects as one: it requires what any of them requires and is open when all are. -/
def mergeObjects (arms : List Schema) : Schema :=
  let merged := arms.foldl
    (fun (fields, required, isOpen) arm =>
      match arm with
      | .object f r o => (mergeFields fields f, r.foldl insertSorted required, isOpen && o)
      | _ => (fields, required, isOpen))
    (([] : Table Schema), ([] : List String), true)
  .object merged.1 merged.2.1 merged.2.2

/-- Whether a schema is an object. -/
def isObject : Schema → Bool
  | .object .. => true
  | _ => false

/-- The schema of values that conform to every arm, where it can be written: an unconstrained arm
says nothing, objects are merged, and equal arms are one. -/
def mergeAll (arms : List Schema) : Except SchemaError Schema :=
  match arms.filter (!Schema.same · .any) with
  | [] => .ok .any
  | [s] => .ok s
  | first :: rest =>
    if (first :: rest).all isObject then .ok (mergeObjects (first :: rest))
    else if rest.all (Schema.same · first) then .ok first
    else .error (.incompatibleAllOf ((first :: rest).map Schema.text))

/-- The names that an object requires, in increasing order. -/
def requiredNames (members : Members) : Except SchemaError (List String) :=
  match Table.get? members "required" with
  | none => .ok []
  | some (.arr names) =>
    names.foldlM
      (fun set name =>
        match name with
        | .str s => .ok (insertSorted set s)
        | _ => .error (.malformed "required entries must be strings"))
      []
  | some _ => .error (.malformed "required must be a list")

/-- Whether an object is open: as it says, and otherwise when it declares no properties. -/
def isOpenObject (members : Members) (properties : Members) : Bool :=
  match Table.get? members "additionalProperties" with
  | some (.bool b) => b
  | some _ => true
  | none => properties.isEmpty

/-- The properties that an object declares. -/
def properties (members : Members) : Except SchemaError Members :=
  match Table.get? members "properties" with
  | some (.obj ps) => .ok ps
  | some _ => .error (.malformed "properties must be a mapping")
  | none => .ok []

theorem sizeOf_properties_lt {members ps : Members} (h : properties members = .ok ps) :
    sizeOf ps ≤ sizeOf members := by
  unfold properties at h
  split at h
  · rename_i ps' hg
    cases h
    have := Table.sizeOf_get?_lt hg
    simp at this; omega
  · cases h
  · cases h
    exact Table.sizeOf_pos members

/-- Allows a schema to be null when its declaration says so. -/
def orNull (members : Members) (s : Schema) : Schema :=
  if Table.get? members "nullable" = some (.bool true) then .union [s, .scalar .null] else s

/-! ## Following references -/

mutual

/-- Resolves a raw schema of a document. `chain` holds the targets that are being followed, and
`room` how many more may be. -/
def value (lib : Library) (room : Nat) (chain : List Target) (document : String) (raw : Value) :
    Resolving Schema :=
  match raw with
  | .null | .bool true => pure .any
  | .bool false => pure .unknown
  | .str text => liftExcept (ofText text)
  | .obj members => do
    let s ← constrained lib room chain document members
    pure (orNull members s)
  | raw => throw (.malformed ("expected a schema object, found " ++ raw.toJson))
termination_by (room, sizeOf raw, 0)
decreasing_by exact .right _ (.left _ _ (by simp))

/-- Resolves the members of a raw schema, apart from `nullable`. The first of `$ref`, `oneOf`,
`anyOf`, `allOf`, `const`, `enum` and `type` that is there decides. -/
def constrained (lib : Library) (room : Nat) (chain : List Target) (document : String)
    (members : Members) : Resolving Schema :=
  if let some reference := Table.get? members "$ref" then
    match reference with
    | .str reference =>
      have := Table.sizeOf_pos members
      follow lib room chain document reference
    | _ => throw (.malformed "$ref must be a string")
  else
    match h : (Table.get? members "oneOf").or (Table.get? members "anyOf") with
    | some arms => do
      have : sizeOf arms < sizeOf members := by
        rcases Option.or_eq_some_iff.1 h with h | h
        · exact Table.sizeOf_get?_lt h
        · exact Table.sizeOf_get?_lt h.2
      let arms ← composition lib room chain document arms
      pure (.union arms)
    | none =>
      match h : Table.get? members "allOf" with
      | some arms => do
        have := Table.sizeOf_get?_lt h
        let arms ← composition lib room chain document arms
        liftExcept (mergeAll arms)
      | none =>
        if let some v := Table.get? members "const" then pure (Schema.ofValue v)
        else if let some v := Table.get? members "enum" then liftExcept (ofEnum v)
        else
          match Table.get? members "type" with
          | some (.str name) => typed lib room chain document members name
          | some (.arr names) => do
            let arms ← names.mapM fun name =>
              match name with
              | .str name => typed lib room chain document members name
              | _ => throw (.malformed "type array must contain strings")
            pure (.union arms)
          | some other =>
            throw (.malformed ("type must be a string or array, found " ++ other.toJson))
          | none =>
            if Table.has members "properties" then typed lib room chain document members "object"
            else if Table.has members "items" then typed lib room chain document members "array"
            else pure .any
termination_by (room, sizeOf members, 2)

/-- Resolves the members of a raw schema of a named type. -/
def typed (lib : Library) (room : Nat) (chain : List Target) (document : String)
    (members : Members) (name : String) : Resolving Schema :=
  if name = "object" then
    match h : properties members with
    | .error e => throw e
    | .ok ps => do
      have := sizeOf_properties_lt h
      let required ← liftExcept (requiredNames members)
      let fields ← fields lib room chain document ps
      pure (.object fields required (isOpenObject members ps))
  else if name = "array" then
    match h : Table.get? members "items" with
    | some items => do
      have := Table.sizeOf_get?_lt h
      let element ← value lib room chain document items
      pure (.array element)
    | none => pure (.array .unknown)
  else
    match TypeText.named? name with
    | some s => pure s
    | none => throw (.invalidType name "not a schema type")
termination_by (room, sizeOf members, 1)
decreasing_by
  · refine .right _ ?_
    rcases Nat.lt_or_eq_of_le this with hlt | heq
    · exact .left _ _ hlt
    · exact heq ▸ .right _ Nat.zero_lt_one
  · exact .right _ (.left _ _ this)

/-- Resolves the arms of a composition. -/
def composition (lib : Library) (room : Nat) (chain : List Target) (document : String)
    (arms : Value) :
    Resolving (List Schema) :=
  match arms with
  | .arr items => list lib room chain document items
  | _ => throw (.malformed "composition must be a list")
termination_by (room, sizeOf arms, 0)

/-- Resolves raw schemas in order. -/
def list (lib : Library) (room : Nat) (chain : List Target) (document : String)
    (items : List Value) : Resolving (List Schema) :=
  match items with
  | [] => pure []
  | raw :: rest => do
    let s ← value lib room chain document raw
    let more ← list lib room chain document rest
    pure (s :: more)
termination_by (room, sizeOf items, 0)

/-- Resolves the raw schemas of named fields in order. -/
def fields (lib : Library) (room : Nat) (chain : List Target) (document : String)
    (ps : List (String × Value)) : Resolving (List (String × Schema)) :=
  match ps with
  | [] => pure []
  | (name, raw) :: rest => do
    let s ← value lib room chain document raw
    let more ← fields lib room chain document rest
    pure ((name, s) :: more)
termination_by (room, sizeOf ps, 0)

/-- Follows a reference of a document. -/
def follow (lib : Library) (room : Nat) (chain : List Target) (document : String)
    (reference : String) : Resolving Schema := do
  let target := Target.ofReference document reference
  match (← get).lookup target with
  | some s => pure s
  | none =>
    if chain.contains target then
      throw (.cycle (chain.dropWhile (· != target) ++ [target]))
    else
      match room with
      | 0 => throw (.depthExceeded reference lib.maxDepth)
      | room + 1 =>
        let raw ← liftExcept (lib.find target reference)
        let s ← value lib room (chain ++ [target]) target.document raw
        modify ((target, s) :: ·)
        pure s
termination_by (room, 0, 0)

end

end Resolving

/-- A library together with the targets resolved so far. -/
structure Resolver where
  library : Library
  resolved : Resolved

namespace Resolver

/-- The resolver of a library, before any reference is followed. -/
def ofLibrary (lib : Library) : Resolver := ⟨lib, []⟩

/-- The number of targets resolved so far. -/
def size (r : Resolver) : Nat := r.resolved.length

/-- Adds a document, or replaces the one of the same name. Resolved targets stay. -/
def addDocument (r : Resolver) (name : String) (document : Value) : Resolver :=
  { r with library := r.library.addDocument name document }

/-- Runs a computation on the resolved targets. -/
def run (r : Resolver) (c : Library → Resolving Schema) : Except SchemaError Schema × Resolver :=
  let (result, resolved) := (c r.library).run r.resolved
  (result, { r with resolved })

/-- Resolves a raw schema of the root document. -/
def resolve (r : Resolver) (raw : Value) : Except SchemaError Schema × Resolver :=
  r.run fun lib => Resolving.value lib lib.maxDepth [] Library.rootName raw

/-- Follows a reference such as `#/definitions/FileList` of the root document. -/
def resolveReference (r : Resolver) (reference : String) : Except SchemaError Schema × Resolver :=
  r.run fun lib => Resolving.follow lib lib.maxDepth [] Library.rootName reference

end Resolver

/-- Resolves a raw schema that is its own root document. -/
def Schema.ofRaw (raw : Value) : Except SchemaError Schema :=
  ((Resolver.ofLibrary (.ofRoot raw)).resolve raw).1

end CapabilityFlow
