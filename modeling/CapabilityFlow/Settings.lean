import CapabilityFlow.Toml.Document
import CapabilityFlow.Value.Decode

/-!
# Settings

What a check may be told about limits and about the capabilities that have a part of their own.
Every setting has a default, so a TOML text may leave out any of them.
-/

namespace CapabilityFlow

/-- What to do with a workflow that targets another major version of the ontology. -/
inductive VersionRule where
  /-- Report an error and check no further. -/
  | refuse
  /-- Report a warning and check on. -/
  | warn
deriving DecidableEq, Repr

namespace VersionRule

def all : List VersionRule := [.refuse, .warn]

def name : VersionRule → String
  | refuse => "refuse"
  | warn => "warn"

def ofName? (s : String) : Option VersionRule :=
  all.find? fun r => r.name = s

def decode : Decode.Reader VersionRule :=
  Decode.variant (all.map name) ofName?

/-- The rule that an item of a document names. A table names it by its only key, with nothing in
it. -/
def ofItem? : Toml.Item → Option VersionRule
  | .text s => ofName? s
  | .table _ [(name, content)] =>
    match content with
    | .array [] | .table _ [] => ofName? name
    | _ => none
  | _ => none

end VersionRule

/-- The settings of a check. -/
structure Settings where
  /-- How long a chain of schema references may be. -/
  maxReferenceDepth : Nat := 32
  /-- The greatest number of rounds of a recovery loop. -/
  maxLoops : Nat := 10
  /-- Whether a mutation without a checkpoint is an error. -/
  strictCheckpoints : Bool := false
  versionRule : VersionRule := .refuse
  /-- The capabilities that count as a checkpoint before a mutation. -/
  checkpoints : List String := ["checkpoint"]
  /-- The capabilities that send data out of the workflow. -/
  sends : List String := ["send"]
  /-- The capabilities that safeguard a later send. -/
  safeguards : List String := ["constrain", "checkpoint"]
  /-- The name by which references reach the workflow's own inputs. -/
  inputNamespace : String := "input"
deriving Repr, DecidableEq

namespace Settings

def isCheckpoint (s : Settings) (capability : String) : Bool :=
  s.checkpoints.contains capability

def isSend (s : Settings) (capability : String) : Bool :=
  s.sends.contains capability

def isSafeguard (s : Settings) (capability : String) : Bool :=
  s.safeguards.contains capability

/-! ## From texts -/

/-- A natural below a bound. -/
def natural? (bound : Nat) : Toml.Item → Option Nat
  | .integer n => if 0 ≤ n && n < bound then some n.toNat else none
  | _ => none

def boolean? : Toml.Item → Option Bool
  | .boolean b => some b
  | _ => none

def text? : Toml.Item → Option String
  | .text s => some s
  | _ => none

def texts? : Toml.Item → Option (List String)
  | .array items => items.mapM text?
  | _ => none

/-- Sets what a key names; keys that name no setting are passed over. -/
def put (s : Settings) (name : String) (v : Toml.Item) : Option Settings :=
  match name with
  | "max_ref_depth" => do pure { s with maxReferenceDepth := ← natural? (Nat.pow 2 63) v }
  | "max_loops_cap" => do pure { s with maxLoops := ← natural? (Nat.pow 2 32) v }
  | "strict_checkpoints" => do pure { s with strictCheckpoints := ← boolean? v }
  | "version_policy" => do pure { s with versionRule := ← VersionRule.ofItem? v }
  | "checkpoint_capabilities" => do pure { s with checkpoints := ← texts? v }
  | "send_capabilities" => do pure { s with sends := ← texts? v }
  | "safeguard_capabilities" => do pure { s with safeguards := ← texts? v }
  | "input_namespace" => do pure { s with inputNamespace := ← text? v }
  | _ => some s

/-- The settings that a TOML text writes, if it writes any. -/
def ofText? (text : String) : Option Settings := do
  (← Toml.document? text).foldlM (fun s m => s.put m.1 m.2) {}

end Settings

end CapabilityFlow
