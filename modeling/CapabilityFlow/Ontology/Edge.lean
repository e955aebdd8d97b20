import CapabilityFlow.Value.Decode
import CapabilityFlow.Value.Json

/-!
# Edges between capabilities
-/

namespace CapabilityFlow

/-- How two capabilities are related. -/
inductive EdgeKind where
  /-- The second has to run before the first. -/
  | requires
  /-- The second should run before the first. -/
  | softRequires
  /-- Where both run, the first runs before the second. -/
  | precedes
  /-- Where both run, the first runs after the second. -/
  | follows
  /-- The two do not run in one workflow. -/
  | conflictsWith
  /-- Each can stand in for the other. -/
  | alternativeTo
deriving DecidableEq, Repr, Inhabited

namespace EdgeKind

def all : List EdgeKind :=
  [requires, softRequires, precedes, follows, conflictsWith, alternativeTo]

def name : EdgeKind → String
  | requires => "requires"
  | softRequires => "soft_requires"
  | precedes => "precedes"
  | follows => "follows"
  | conflictsWith => "conflicts_with"
  | alternativeTo => "alternative_to"

/-- Edges of a symmetric kind are declared in both directions. -/
def isSymmetric : EdgeKind → Bool
  | conflictsWith | alternativeTo => true
  | _ => false

def decode : Decode.Reader EdgeKind :=
  Decode.variant (all.map name) fun s => all.find? fun k => s = k.name

end EdgeKind

/-- A directed relation between two capabilities. -/
structure Edge where
  source : String
  target : String
  kind : EdgeKind
deriving DecidableEq, Repr, Inhabited

namespace Edge

def text (e : Edge) : String :=
  s!"{e.source} -[{e.kind.name}]-> {e.target}"

/-- The same relation in the other direction. -/
def reversed (e : Edge) : Edge :=
  ⟨e.target, e.source, e.kind⟩

/-- The capability that has to come first and the one that has to come later. -/
def ordering? (e : Edge) : Option (String × String) :=
  match e.kind with
  | .precedes => some (e.source, e.target)
  | .follows => some (e.target, e.source)
  | _ => none

/-- The fields of an edge read so far. -/
structure Draft where
  source : Option String := none
  target : Option String := none
  kind : Option EdgeKind := none

/-- Reads one member; `kind` is another name of `type`. -/
def Draft.put (d : Draft) (name : String) (v : Value) : Except DecodeError Draft :=
  match name with
  | "from" => do pure { d with source := ← Decode.once "from" d.source Decode.string v }
  | "to" => do pure { d with target := ← Decode.once "to" d.target Decode.string v }
  | "type" | "kind" => do pure { d with kind := ← Decode.once "type" d.kind EdgeKind.decode v }
  | _ => .ok d

/-- An edge is a record, or the list of its fields. -/
def decode : Decode.Reader Edge
  | .obj ms => do
    let d ← Decode.members Draft.put {} ms
    pure ⟨← Decode.required "from" d.source, ← Decode.required "to" d.target,
      ← Decode.required "type" d.kind⟩
  | .arr items => do
    let expected := "struct Edge with 3 elements"
    let e : Edge := ⟨← Decode.item items 0 expected Decode.string,
      ← Decode.item items 1 expected Decode.string, ← Decode.item items 2 expected EdgeKind.decode⟩
    Decode.atMost items 3
    pure e
  | v => .error (.invalidType v "struct Edge")

def toValue (e : Edge) : Value :=
  .obj [("from", .str e.source), ("to", .str e.target), ("type", .str e.kind.name)]

end Edge

end CapabilityFlow
