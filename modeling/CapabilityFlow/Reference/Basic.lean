import CapabilityFlow.Schema.Path

/-!
# References

A reference names a producer, a path into what it yields, and perhaps the type that the author
ascribes to it. In a text it is written between `${` and a closing brace.
-/

namespace CapabilityFlow

/-- A text between the marks of a reference. -/
def spanText (body : String) : String :=
  "$\x7b" ++ body ++ "\x7d"

/-- A reference to what a producer yields. -/
structure Reference where
  /-- The label of a step, or the name of the workflow's own inputs. -/
  producer : String
  path : Path
  /-- The type that the author ascribes. -/
  ascribed : Option Schema
  /-- The reference as written, with its marks. -/
  raw : String
deriving Repr, DecidableEq

namespace Reference

/-- The producer and the path. -/
def target (r : Reference) : String :=
  if r.path.isEmpty then r.producer
  else
    let path := r.path.text
    if path.toList.head? = some '[' then r.producer ++ path else r.producer ++ "." ++ path

/-- The canonical form, with its marks. -/
def render (r : Reference) : String :=
  match r.ascribed with
  | some s => spanText (r.target ++ ":" ++ s.text)
  | none => spanText r.target

/-- A reference written in its canonical form. -/
def canonical (producer : String) (path : Path) (ascribed : Option Schema) : Reference :=
  let r : Reference := ⟨producer, path, ascribed, ""⟩
  { r with raw := r.render }

end Reference

end CapabilityFlow
