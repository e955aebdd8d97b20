import CapabilityFlow.Schema.Basic
import CapabilityFlow.Value.Decode

/-!
# Capabilities

A capability is an operation that a workflow step can run, with what it takes and what it yields.
-/

namespace CapabilityFlow

/-- The cognitive layer of a capability. -/
inductive Layer where
  | perceive
  | understand
  | reason
  | model
  | synthesize
  | execute
  | verify
  | remember
  | coordinate
deriving DecidableEq, Repr, Inhabited

namespace Layer

/-- The layers in their order. -/
def all : List Layer :=
  [perceive, understand, reason, model, synthesize, execute, verify, remember, coordinate]

def name : Layer → String
  | perceive => "perceive"
  | understand => "understand"
  | reason => "reason"
  | model => "model"
  | synthesize => "synthesize"
  | execute => "execute"
  | verify => "verify"
  | remember => "remember"
  | coordinate => "coordinate"

/-- A layer is written in lower or in upper case throughout. -/
def decode : Decode.Reader Layer :=
  Decode.variant (all.flatMap fun l => [l.name.toUpper, l.name])
    fun s => all.find? fun l => s = l.name || s = l.name.toUpper

end Layer

/-- The risk of a capability or of a workflow. -/
inductive Risk where
  | low
  | medium
  | high
deriving DecidableEq, Repr, Inhabited

namespace Risk

def all : List Risk := [low, medium, high]

def name : Risk → String
  | low => "low"
  | medium => "medium"
  | high => "high"

/-- The place of a risk in the order of risks. -/
def rank : Risk → Nat
  | low => 0
  | medium => 1
  | high => 2

def decode : Decode.Reader Risk :=
  Decode.variant (all.map name) fun s => all.find? fun r => s = r.name

end Risk

/-- A lower-case letter, then lower-case letters, digits, underscores and hyphens. -/
def isWellFormedId (id : String) : Bool :=
  match id.toList with
  | [] => false
  | c :: r => c.isLower && r.all fun c => c.isLower || c.isDigit || c = '_' || c = '-'

/-- An operation that a workflow step can run. -/
structure Capability where
  id : String
  layer : Layer
  risk : Risk
  /-- Whether it changes something outside the workflow. -/
  mutation : Bool
  requiresApproval : Bool
  description : String
  /-- The input schema as it was declared. -/
  inputDeclared : Value
  /-- The output schema as it was declared. -/
  outputDeclared : Value
  input : Schema
  output : Schema
deriving Repr, Inhabited, DecidableEq

namespace Capability

/-- The declared type of an input field. -/
def inputField? (c : Capability) (name : String) : Option Schema :=
  c.input.field? name

/-- Whether it takes input fields that it does not declare. -/
def acceptsUndeclaredInputs (c : Capability) : Bool :=
  match c.input with
  | .object _ _ isOpen => isOpen
  | _ => true

/-- The names of the input fields that it requires, in increasing order. -/
def requiredInputs (c : Capability) : List String :=
  match c.input with
  | .object _ required _ => required
  | _ => []

end Capability

end CapabilityFlow
