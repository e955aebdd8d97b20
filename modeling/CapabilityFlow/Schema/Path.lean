import CapabilityFlow.Schema.Basic

/-!
# Paths into schemas

A path selects a part of a value: fields by name, and elements of arrays. `Schema.walk` finds the
schema of the selected part. Through a union it keeps the result of every arm that has the path.
-/

namespace CapabilityFlow

/-- One segment of a path. -/
inductive Segment where
  | field (name : String)
  | element
deriving DecidableEq, Repr, Inhabited

abbrev Path := List Segment

namespace Segment

/-- A segment by itself. -/
def text : Segment → String
  | field name => name
  | element => "[]"

end Segment

namespace Path

/-- A path as `a.b[].c`: a point stands before a field unless nothing stands before it. -/
def text (p : Path) : String :=
  p.foldl extend ""
where
  extend (before : String) : Segment → String
    | .field name => if before.isEmpty then name else before ++ "." ++ name
    | .element => before ++ "[]"

end Path

/-- Why a path does not lead into a schema. The schema is given by its text. -/
inductive PathError where
  | unknownField (field on : String)
  | notAnArray (on : String)
  | notAnObject (field on : String)
deriving DecidableEq, Repr

def PathError.message : PathError → String
  | unknownField field on => s!"Field '{field}' is not declared on {on}"
  | notAnArray on => s!"Cannot index into non-array type {on}"
  | notAnObject field on => s!"Cannot access field '{field}' of non-object type {on}"

namespace Schema

/-- The first error of a list of results, if there is one. -/
def firstError? {ε α : Type} (results : List (Except ε α)) : Option ε :=
  results.findSome? fun
    | .error e => some e
    | .ok _ => none

/-- The schemas of a list of results, each kept once. -/
def distinct (results : List (Except PathError Schema)) : List Schema :=
  results.foldl
    (fun found r =>
      match r with
      | .ok s => if found.any (s.same ·) then found else found ++ [s]
      | .error _ => found)
    []

/-- The schema that a path selects. -/
def walk : Schema → Path → Except PathError Schema
  | s, [] => .ok s
  | .any, _ :: _ => .ok .any
  | .unknown, _ :: _ => .ok .unknown
  | .union arms, seg :: rest =>
    let results := arms.map fun arm => walk arm (seg :: rest)
    match distinct results with
    | [] => .error ((firstError? results).getD (.unknownField seg.text (union arms).text))
    | found => .ok (ofArms found)
  | .object fields required isOpen, .field name :: rest =>
    match _h : Table.get? fields name with
    | some s => walk s rest
    | none =>
      if isOpen then .ok .unknown
      else .error (.unknownField name (object fields required isOpen).text)
  | .array element, .element :: rest => walk element rest
  | s, .element :: _ => .error (.notAnArray s.text)
  | s, .field name :: _ => .error (.notAnObject name s.text)
termination_by s p => p.length + sizeOf s
decreasing_by
  · have := List.sizeOf_lt_of_mem ‹_ ∈ _›
    simp; omega
  · have := Table.sizeOf_get?_lt ‹_›
    simp; omega
  · simp; omega

end Schema

end CapabilityFlow
