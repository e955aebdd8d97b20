import CapabilityFlow.Text.Blank

/-!
# Findings

What is wrong with a workflow, or worth a warning, and where. Each `Code` belongs to one level for
good; `Finding.order` is the order in which findings are reported.
-/

namespace CapabilityFlow

/-- The levels of checking, in the order in which they run. -/
inductive Level where
  | structural
  | edges
  | contracts
  | policy
deriving DecidableEq, Repr, Inhabited

namespace Level

def all : List Level := [structural, edges, contracts, policy]

/-- The place of a level in the order of levels. -/
def rank : Level → Nat
  | structural => 1
  | edges => 2
  | contracts => 3
  | policy => 4

def text : Level → String
  | structural => "L1"
  | edges => "L2"
  | contracts => "L3"
  | policy => "L4"

/-- What a level is about. -/
def title : Level → String
  | structural => "structural"
  | edges => "edge-constraint"
  | contracts => "contract/type"
  | policy => "semantic"

end Level

inductive Severity where
  | error
  | warning
deriving DecidableEq, Repr, Inhabited

namespace Severity

def all : List Severity := [error, warning]

def text : Severity → String
  | error => "error"
  | warning => "warning"

end Severity

/-- What a finding reports. -/
inductive Code where
  | malformedWorkflow
  | unknownCapability
  | missingField
  | duplicateStoreAs
  | malformedId
  | bindingSyntax
  | groupWithoutJoin
  | unknownGotoTarget
  | unboundedLoop
  | incompatibleVersion
  | unknownProducer
  | unknownReferenceField
  | typeMismatch
  | ambiguousType
  | ascriptionMismatch
  | siblingReference
  | unknownInput
  | missingInput
  | requirementUnmet
  | conflictingCapabilities
  | orderingViolation
  | mutationWithoutCheckpoint
  | softRequirementUnmet
  | unresolvedInputs
  | sendWithoutSafeguard
  | approvalWithoutGate
  | understatedRisk
deriving DecidableEq, Repr, Inhabited

namespace Code

/-- All codes, in their order. -/
def all : List Code :=
  [malformedWorkflow, unknownCapability, missingField,
    duplicateStoreAs, malformedId, bindingSyntax,
    groupWithoutJoin, unknownGotoTarget, unboundedLoop,
    incompatibleVersion, unknownProducer, unknownReferenceField,
    typeMismatch, ambiguousType, ascriptionMismatch,
    siblingReference, unknownInput, missingInput,
    requirementUnmet, conflictingCapabilities, orderingViolation,
    mutationWithoutCheckpoint, softRequirementUnmet, unresolvedInputs,
    sendWithoutSafeguard, approvalWithoutGate, understatedRisk]

/-- The short text of a code. Its letter tells what kind of rule it belongs to. -/
def text : Code → String
  | malformedWorkflow => "V100"
  | unknownCapability => "V101"
  | missingField => "V102"
  | duplicateStoreAs => "V103"
  | malformedId => "V104"
  | bindingSyntax => "V105"
  | groupWithoutJoin => "V106"
  | unknownGotoTarget => "V107"
  | unboundedLoop => "V108"
  | incompatibleVersion => "V109"
  | unknownProducer => "B201"
  | unknownReferenceField => "B202"
  | typeMismatch => "B203"
  | ambiguousType => "B204"
  | ascriptionMismatch => "B205"
  | siblingReference => "B206"
  | unknownInput => "B207"
  | missingInput => "B208"
  | requirementUnmet => "S301"
  | conflictingCapabilities => "S302"
  | orderingViolation => "S303"
  | mutationWithoutCheckpoint => "S304"
  | softRequirementUnmet => "S305"
  | unresolvedInputs => "S306"
  | sendWithoutSafeguard => "R401"
  | approvalWithoutGate => "R402"
  | understatedRisk => "R403"

/-- The name of a code. -/
def name : Code → String
  | malformedWorkflow => "MALFORMED_WORKFLOW"
  | unknownCapability => "UNKNOWN_CAPABILITY"
  | missingField => "MISSING_REQUIRED_FIELD"
  | duplicateStoreAs => "DUPLICATE_STORE_AS"
  | malformedId => "MALFORMED_CAPABILITY_ID"
  | bindingSyntax => "BINDING_SYNTAX_ERROR"
  | groupWithoutJoin => "PARALLEL_GROUP_WITHOUT_JOIN"
  | unknownGotoTarget => "UNKNOWN_GOTO_TARGET"
  | unboundedLoop => "UNBOUNDED_RECOVERY_LOOP"
  | incompatibleVersion => "INCOMPATIBLE_ONTOLOGY_VERSION"
  | unknownProducer => "BAD_REFERENCE_PATH"
  | unknownReferenceField => "UNKNOWN_REFERENCE_FIELD"
  | typeMismatch => "TYPE_MISMATCH"
  | ambiguousType => "AMBIGUOUS_TYPE"
  | ascriptionMismatch => "ANNOTATION_MISMATCH"
  | siblingReference => "PARALLEL_SIBLING_REFERENCE"
  | unknownInput => "UNKNOWN_INPUT_FIELD"
  | missingInput => "MISSING_REQUIRED_INPUT"
  | requirementUnmet => "REQUIRES_UNSATISFIED"
  | conflictingCapabilities => "CONFLICTING_CAPABILITIES"
  | orderingViolation => "ORDERING_VIOLATION"
  | mutationWithoutCheckpoint => "MUTATION_WITHOUT_CHECKPOINT"
  | softRequirementUnmet => "SOFT_REQUIRES_UNSATISFIED"
  | unresolvedInputs => "UNRESOLVED_SCHEMA_REF"
  | sendWithoutSafeguard => "SEND_WITHOUT_SAFEGUARD"
  | approvalWithoutGate => "APPROVAL_WITHOUT_GATE"
  | understatedRisk => "UNDERSTATED_RISK"

/-- The level that reports a code. -/
def level : Code → Level
  | malformedWorkflow | unknownCapability | missingField
  | duplicateStoreAs | malformedId | bindingSyntax
  | groupWithoutJoin | unknownGotoTarget | unboundedLoop
  | incompatibleVersion => .structural
  | requirementUnmet | conflictingCapabilities | orderingViolation
  | mutationWithoutCheckpoint | softRequirementUnmet => .edges
  | unknownProducer | unknownReferenceField | typeMismatch
  | ambiguousType | ascriptionMismatch | siblingReference
  | unknownInput | missingInput | unresolvedInputs => .contracts
  | sendWithoutSafeguard | approvalWithoutGate | understatedRisk => .policy

/-- The severity of a code where the policy says nothing else. -/
def defaultSeverity : Code → Severity
  | unknownInput | mutationWithoutCheckpoint | softRequirementUnmet
  | sendWithoutSafeguard | approvalWithoutGate | understatedRisk => .warning
  | _ => .error

/-- What a code reports, in one line. -/
def description : Code → String
  | malformedWorkflow =>
    "The workflow body does not match the workflow document format"
  | unknownCapability =>
    "A step names a capability that is not in the ontology"
  | missingField =>
    "A step or workflow lacks a required field"
  | duplicateStoreAs =>
    "Two steps share the same store_as alias"
  | malformedId =>
    "A capability id is not of the form [a-z][a-z0-9_-]*"
  | bindingSyntax =>
    "A binding, condition or gate expression does not parse"
  | groupWithoutJoin =>
    "A parallel group has no declared join strategy"
  | unknownGotoTarget =>
    "A failure mode's goto_step names no step in the workflow"
  | unboundedLoop =>
    "A goto_step recovery loop has no usable max_loops bound"
  | incompatibleVersion =>
    "The workflow targets an incompatible ontology major version"
  | unknownProducer =>
    "A reference names no preceding step or input namespace"
  | unknownReferenceField =>
    "A reference path does not exist in the producer's output schema"
  | typeMismatch =>
    "The bound value's type does not fit the consumer's input type"
  | ambiguousType =>
    "The bound value has no unique type and carries no annotation"
  | ascriptionMismatch =>
    "The type annotation agrees with no candidate type"
  | siblingReference =>
    "A step reads the output of a step in its own parallel group"
  | unknownInput =>
    "A binding targets an input field the capability does not declare"
  | missingInput =>
    "A required input field of the capability is not bound"
  | requirementUnmet =>
    "A required capability does not run earlier in the workflow"
  | conflictingCapabilities =>
    "Two conflicting capabilities appear in the same workflow"
  | orderingViolation =>
    "A precedes/follows ordering constraint is violated"
  | mutationWithoutCheckpoint =>
    "A mutating step has no earlier checkpoint step"
  | softRequirementUnmet =>
    "A soft requirement does not run earlier in the workflow"
  | unresolvedInputs =>
    "The workflow's inputs schema cannot be resolved"
  | sendWithoutSafeguard =>
    "A send step has no earlier constrain or checkpoint step"
  | approvalWithoutGate =>
    "A step requiring approval has no gate"
  | understatedRisk =>
    "The declared workflow risk is below the risk of one of its steps"

/-- The place of a code in the order of codes. -/
def rank (c : Code) : Nat :=
  all.idxOf c

/-- The code of a text or a name, in upper or lower case. -/
def ofText? (s : String) : Option Code :=
  let upper := s.toUpper
  all.find? fun c => c.text = upper || c.name = upper

end Code

/-- Where a finding applies. -/
structure Location where
  workflow : String
  /-- The label of a step. -/
  step : Option String := none
  /-- The place of a step in the workflow. -/
  index : Option Nat := none
  /-- An input field, or another part of a step. -/
  field : Option String := none
deriving DecidableEq, Repr, Inhabited

namespace Location

/-- A step of a workflow. -/
def atStep (workflow : String) (index : Nat) (label : String) : Location :=
  { workflow, step := some label, index := some index }

/-- A part of a location. -/
def inField (l : Location) (field : String) : Location :=
  { l with field := some field }

def text (l : Location) : String :=
  let step := match l.step, l.index with
    | some label, _ => "/" ++ label
    | none, some i => s!"/steps[{i}]"
    | none, none => ""
  let field := match l.field with
    | some f => "/" ++ f
    | none => ""
  l.workflow ++ step ++ field

end Location

/-- The types of a mismatch, by their texts. -/
structure TypePair where
  found : String
  expected : String
deriving DecidableEq, Repr, Inhabited

/-- One finding about a workflow. -/
structure Finding where
  code : Code
  severity : Severity
  location : Location
  message : String
  suggestion : Option String
  types : Option TypePair
deriving DecidableEq, Repr, Inhabited

namespace Finding

/-- A finding of the default severity without a suggestion. -/
def of (code : Code) (location : Location) (message : String) : Finding :=
  ⟨code, code.defaultSeverity, location, message, none, none⟩

def level (f : Finding) : Level :=
  f.code.level

def isError (f : Finding) : Bool :=
  f.severity = .error

/-- The text of a suggestion where there is none. -/
def noSuggestion : String := "No automated remediation available"

def suggestionText (f : Finding) : String :=
  f.suggestion.getD noSuggestion

def text (f : Finding) : String :=
  s!"{f.code.text} {f.code.name} [{f.level.text}] {f.location.text}: {f.message}"

/-- Nothing comes before something. -/
def compareOption {α : Type} [Ord α] : Option α → Option α → Ordering
  | none, none => .eq
  | none, some _ => .lt
  | some _, none => .gt
  | some a, some b => compare a b

/-- The order of findings in reports: by level, step, field, code and message. -/
def order (a b : Finding) : Ordering :=
  (compare a.level.rank b.level.rank).then <|
  (compareOption a.location.index b.location.index).then <|
  (compareOption a.location.field b.location.field).then <|
  (compare a.code.rank b.code.rank).then (compare a.message b.message)

/-- Findings in the order of reports; those that tie keep their order. -/
def sort (fs : List Finding) : List Finding :=
  fs.mergeSort fun a b => (a.order b).isLE

end Finding

end CapabilityFlow
