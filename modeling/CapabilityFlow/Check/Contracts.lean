import CapabilityFlow.Finding
import CapabilityFlow.Ontology.Basic
import CapabilityFlow.Schema.Compatibility
import CapabilityFlow.Workflow.Graph

/-!
# Contracts

Whether what a step is bound to fits the inputs of its capability. A reference is followed to the
step that it names and into what that step yields; its type is compared with the declared type of
the input. Types are never guessed: where several are possible, the author has to ascribe one.
-/

namespace CapabilityFlow

/-- What references are followed in. -/
structure Scope where
  ontology : Ontology
  workflow : Workflow
  /-- The producer that stands for the inputs of the workflow. -/
  inputNamespace : String
  /-- The type of the inputs of the workflow. -/
  inputs : Schema

/-- Why a reference cannot be followed, or has no type. -/
inductive ReferenceFault where
  /-- No step has the name of the producer; these could have been named. -/
  | noStep (visible : List String)
  /-- The producer runs side by side with the consumer. -/
  | concurrent (producer group : String)
  /-- The producer is the consumer itself. -/
  | itself (producer : String)
  /-- The producer runs after the consumer. -/
  | later (producer : String)
  | noPath (cause : PathError)
  /-- What is reached has no unique type, and none is ascribed. -/
  | ambiguous (reached : Schema)
  /-- The ascribed type is none of those that are possible. -/
  | misascribed (ascribed reached : Schema)
deriving Repr, DecidableEq

namespace ReferenceFault

def code : ReferenceFault → Code
  | noStep _ | itself _ | later _ => .unknownProducer
  | concurrent .. => .siblingReference
  | noPath _ => .unknownReferenceField
  | ambiguous _ => .ambiguousType
  | misascribed .. => .ascriptionMismatch

/-- What is wrong with a reference. -/
def message (r : Reference) : ReferenceFault → String
  | noStep visible =>
    s!"Reference {r.raw} names no step; visible producers are: " ++ ", ".intercalate visible
  | concurrent producer group =>
    s!"Reference {r.raw} reads step '{producer}', which runs concurrently " ++
      s!"in parallel group '{group}'"
  | itself producer =>
    s!"Reference {r.raw} reads '{producer}', which is the consuming step itself; " ++
      "producers must run earlier"
  | later producer =>
    s!"Reference {r.raw} reads '{producer}', which is a later step; producers must run earlier"
  | noPath cause => s!"Reference {r.raw} does not resolve: {cause.message}"
  | ambiguous reached =>
    s!"Reference {r.raw} has no unique type ({reached.text}); add an annotation such as " ++
      spanText (r.target ++ ":<type>")
  | misascribed ascribed reached =>
    s!"Annotation '{ascribed.text}' on {r.raw} agrees with no candidate of {reached.text}"

end ReferenceFault

/-- A fault of a reference at a place. -/
def Finding.ofFault (l : Location) (fault : Reference × ReferenceFault) : Finding :=
  .of fault.2.code l (fault.2.message fault.1)

namespace Scope

/-! ## References -/

/-- The producers that a step can name. -/
def visible (s : Scope) (consumer : Step) : List String :=
  (s.workflow.steps.filter (·.index < consumer.index)).map (·.label) ++ [s.inputNamespace]

/-- The step that a reference names, if the consumer can read what it yields: it runs earlier and
not side by side with it, or in an earlier pass through a loop around both. -/
def producer (s : Scope) (consumer : Step) (r : Reference) : Except ReferenceFault Step :=
  match s.workflow.step? r.producer with
  | none => .error (.noStep (s.visible consumer))
  | some p =>
    if p.index < consumer.index then
      if consumer.isSibling p then .error (.concurrent p.label (p.group.getD "")) else .ok p
    else if s.workflow.loopVisible consumer.index p.index then .ok p
    else if p.index = consumer.index then .error (.itself p.label)
    else .error (.later p.label)

/-- What the producer of a reference yields. -/
def producerOutput (s : Scope) (consumer : Step) (r : Reference) : Except ReferenceFault Schema :=
  if r.producer = s.inputNamespace then .ok s.inputs
  else do
    let p ← s.producer consumer r
    match s.ontology.get? p.capability with
    | some c => pure c.output
    | none => pure .any

/-- What a reference reaches. -/
def reached (s : Scope) (consumer : Step) (r : Reference) : Except ReferenceFault Schema := do
  ((← s.producerOutput consumer r).walk r.path).mapError .noPath

/-- The type of a reference as a value. An ascribed type is one of those possible, and it counts
where what is reached leaves it open. -/
def valueType (s : Scope) (consumer : Step) (r : Reference) : Except ReferenceFault Schema := do
  let reached ← s.reached consumer r
  match r.ascribed with
  | none => if reached.isAmbiguous then throw (.ambiguous reached) else pure reached
  | some ascribed =>
    if !reached.admits ascribed then throw (.misascribed ascribed reached)
    else if reached.isAmbiguous || reached = .any then pure ascribed
    else pure reached

/-- The references that reach nothing. -/
def faults (s : Scope) (consumer : Step) (rs : List Reference) :
    List (Reference × ReferenceFault) :=
  rs.filterMap fun r =>
    match s.reached consumer r with
    | .ok _ => none
    | .error fault => some (r, fault)

/-! ## Bindings -/

/-- The type of a binding, or the faults of its references. References inside a text or a structure
only have to reach something. -/
def bindingType (s : Scope) (consumer : Step) (b : Binding) :
    Except (List (Reference × ReferenceFault)) Schema :=
  let whole (rs : List Reference) (t : Schema) :=
    match s.faults consumer rs with
    | [] => .ok t
    | faults => .error faults
  match b with
  | .reference r => (s.valueType consumer r).mapError fun fault => [(r, fault)]
  | .template _ rs => whole rs (.scalar .string)
  | .composite v rs => whole rs (.ofValue v)
  | .literal v => .ok (.ofValue v)

/-- The finding of a binding whose type does not fit its input. -/
def mismatch (c : Capability) (field : String) (found expected : Schema) (l : Location) : Finding :=
  { Finding.of .typeMismatch l
      (s!"Input '{field}' of capability '{c.id}' expects {expected.text} " ++
        s!"but the binding provides {found.text}")
    with types := some ⟨found.text, expected.text⟩ }

/-- The finding of a binding of an input that the capability does not take. -/
def undeclaredFindings (c : Capability) (field : String) (l : Location) : List Finding :=
  if (c.inputField? field).isSome || c.acceptsUndeclaredInputs then []
  else [.of .unknownInput l s!"Capability '{c.id}' declares no input field '{field}'"]

/-- The findings about one binding. -/
def bindingFindings (s : Scope) (consumer : Step) (c : Capability) (l : Location)
    (b : String × Binding) : List Finding :=
  let l := l.inField b.1
  let typeFindings :=
    match s.bindingType consumer b.2, c.inputField? b.1 with
    | .error faults, _ => faults.map (Finding.ofFault l)
    | .ok found, some expected =>
      if expected.accepts found then [] else [mismatch c b.1 found expected l]
    | .ok _, none => []
  undeclaredFindings c b.1 l ++ typeFindings

/-- The required inputs that are not bound. -/
def missingFindings (consumer : Step) (c : Capability) (l : Location) : List Finding :=
  (c.requiredInputs.filter (!consumer.bindings.has ·)).map fun field =>
    .of .missingInput (l.inField field)
      s!"Required input '{field}' of capability '{c.id}' is not bound"

/-- The references of a condition that reach nothing. -/
def expressionFindings (s : Scope) (consumer : Step) (l : Location) (e : Expression) :
    List Finding :=
  (s.faults consumer e.references).map (Finding.ofFault l)

/-- Every finding about the bindings, the condition and the gates of a step. -/
def stepFindings (s : Scope) (consumer : Step) : List Finding :=
  match s.ontology.get? consumer.capability with
  | none => []
  | some c =>
    let l := Location.atStep s.workflow.name consumer.index consumer.label
    let condition := match consumer.condition with
      | some e => s.expressionFindings consumer (l.inField "condition") e
      | none => []
    let gates := consumer.gates.zipIdx.flatMap fun (g, i) =>
      s.expressionFindings consumer (l.inField s!"gates[{i}]") g.condition
    consumer.bindings.flatMap (s.bindingFindings consumer c l) ++ missingFindings consumer c l ++
      condition ++ gates

end Scope

end CapabilityFlow
