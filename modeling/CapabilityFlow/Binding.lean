import CapabilityFlow.Reference.Parser
import CapabilityFlow.Reference.Span
import CapabilityFlow.Value.Basic

/-!
# Bindings

What an input field of a step is bound to: one reference, a text or a structure with references
inside, or a literal. Conditions and gates are texts with references inside.
-/

namespace CapabilityFlow

/-- What an input field is bound to. -/
inductive Binding where
  /-- The whole value is one reference. -/
  | reference (r : Reference)
  | template (text : String) (references : List Reference)
  | composite (value : Value) (references : List Reference)
  | literal (value : Value)
deriving Repr, DecidableEq

/-- A condition or a gate, with the references that it reads. -/
structure Expression where
  text : String
  references : List Reference
deriving Repr, DecidableEq

/-- The references embedded in a text, in order. -/
def Reference.allIn (text : String) : Except ReferenceError (List Reference) := do
  (← Span.scan text).mapM (Reference.parse ·.body)

/-- The expression that a text writes. -/
def Expression.parse (text : String) : Except ReferenceError Expression :=
  (Reference.allIn text).map (⟨text, ·⟩)

/-- The references in the strings of a value, in order. -/
def Value.references : Value → Except ReferenceError (List Reference)
  | .str text => Reference.allIn text
  | .arr items => do pure (← items.mapM Value.references).flatten
  | .obj members => do pure (← members.mapM fun m => Value.references m.2).flatten
  | _ => .ok []
termination_by v => sizeOf v
decreasing_by
  · have := List.sizeOf_lt_of_mem ‹_ ∈ _›
    simp; omega
  · have := Table.sizeOf_lt_of_mem ‹_ ∈ _›
    simp; omega

namespace Binding

/-- Every reference that a binding reads. -/
def references : Binding → List Reference
  | reference r => [r]
  | template _ rs => rs
  | composite _ rs => rs
  | literal _ => []

/-- The binding that a text writes. It is one reference when a single span is as long as the text
without the blanks around it, counted in bytes. -/
def ofText (text : String) : Except ReferenceError Binding := do
  match ← Span.scan text with
  | [] => pure (.literal (.str text))
  | [span] =>
    let r ← Reference.parse span.body
    if span.stop - span.start = Span.byteCount (Text.trimChars text.toList) then pure (.reference r)
    else pure (.template text [r])
  | spans => pure (.template text (← spans.mapM (Reference.parse ·.body)))

/-- The binding that a value writes. -/
def parse (v : Value) : Except ReferenceError Binding :=
  match v with
  | .str text => ofText text
  | .arr _ | .obj _ => do
    match ← v.references with
    | [] => pure (.literal v)
    | rs => pure (.composite v rs)
  | v => .ok (.literal v)

end Binding

end CapabilityFlow
