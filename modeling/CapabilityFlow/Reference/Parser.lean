import CapabilityFlow.Reference.Basic
import CapabilityFlow.Reference.Token

/-!
# Reading references

The body of a reference, between its marks:

    reference := identifier segment* (':' type)?
    segment   := '.' identifier | '.' number | '[' number? ']'

A number stands for an element, whichever it is, because all elements of an array have one schema.
-/

namespace CapabilityFlow.Reference

/-- The fault of a token that is not of the expected kind. -/
def misplaced (expected : TokenKind) : List Token → ReferenceError
  | [] => .unexpectedEnd expected.text
  | t :: _ =>
    if t.kind = .finish then .unexpectedEnd expected.text
    else .unexpectedToken expected.text t.text

/-- Takes a token of an expected kind. -/
def take (expected : TokenKind) (ts : List Token) : Except ReferenceError (Token × List Token) :=
  match ts with
  | t :: r => if t.kind = expected then .ok (t, r) else .error (misplaced expected ts)
  | [] => .error (misplaced expected ts)

/-- Reads the segments of a path. -/
def segments : List Token → Except ReferenceError (Path × List Token)
  | ⟨.dot, _, _⟩ :: ⟨.number, _, _⟩ :: r => more .element (segments r)
  | ⟨.dot, _, _⟩ :: ⟨.identifier, name, _⟩ :: r => more (.field name) (segments r)
  | ⟨.dot, _, _⟩ :: r => .error (misplaced .identifier r)
  | ⟨.openBracket, _, _⟩ :: ⟨.number, _, _⟩ :: ⟨.closeBracket, _, _⟩ :: r =>
    more .element (segments r)
  | ⟨.openBracket, _, _⟩ :: ⟨.number, _, _⟩ :: r => .error (misplaced .closeBracket r)
  | ⟨.openBracket, _, _⟩ :: ⟨.closeBracket, _, _⟩ :: r => more .element (segments r)
  | ⟨.openBracket, _, _⟩ :: r => .error (misplaced .closeBracket r)
  | ts => .ok ([], ts)
where
  more (s : Segment) (rest : Except ReferenceError (Path × List Token)) :
      Except ReferenceError (Path × List Token) :=
    rest.map fun (path, ts) => (s :: path, ts)

/-- The reference that a body writes. -/
def parse (body : String) : Except ReferenceError Reference := do
  if (Text.trim body).isEmpty then throw .empty
  let (ts, tail) ← Token.tokenize body
  let (producer, ts) ← take .identifier ts
  let (path, ts) ← segments ts
  let ts ← match tail with
    | some _ => (take .colon ts).map (·.2)
    | none => pure ts
  let _ ← take .finish ts
  let ascribed ← match tail with
    | some text =>
      match TypeText.parse text with
      | .ok s => pure (some s)
      | .error e => throw (.invalidType (Text.trim text) e)
    | none => pure none
  pure ⟨producer.text, path, ascribed, spanText body⟩

end CapabilityFlow.Reference
