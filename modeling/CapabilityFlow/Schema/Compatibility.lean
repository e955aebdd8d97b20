import CapabilityFlow.Schema.Basic

/-!
# Compatibility of schemas

`expected.accepts found` says whether a value of the second type may flow where the first is
expected; `inferred.admits ascribed` whether an explicit type agrees with an inferred one.
-/

namespace CapabilityFlow.Schema

/-- Whether a value of type `found` may flow into a place of the expected type. Every arm of a
found union must fit, and one arm of an expected union is enough. An object of which nothing is
declared fits any object. -/
def accepts : Schema → Schema → Bool
  | .any, _ | _, .any | .unknown, _ => true
  | _, .unknown => false
  | expected, .union arms => (arms.map fun arm => accepts expected arm).all id
  | .union arms, found => (arms.map fun arm => accepts arm found).any id
  | .scalar expected, .scalar found => expected.accepts found
  | .array expected, .array found => accepts expected found
  | .object fields required isOpen, .object fields' _ isOpen' =>
    (isOpen && fields.isEmpty) || (isOpen' && fields'.isEmpty) ||
      (fields.map fun f =>
        match _h : Table.get? fields' f.1 with
        | some s => accepts f.2 s
        | none => !required.contains f.1).all id &&
      (isOpen || (Table.names fields').all (Table.has fields ·))
  | _, _ => false
termination_by expected found => sizeOf expected + sizeOf found
decreasing_by
  · have := List.sizeOf_lt_of_mem ‹_ ∈ _›
    simp; omega
  · have := List.sizeOf_lt_of_mem ‹_ ∈ _›
    simp; omega
  · simp; omega
  · have := Table.sizeOf_lt_of_mem ‹_ ∈ _›
    have := Table.sizeOf_get?_lt ‹_›
    simp; omega

/-- Whether an explicit type agrees with this inferred one. It has to agree with one arm of an
inferred union, and with the elements of an inferred array. -/
def admits : Schema → Schema → Bool
  | .any, _ | .unknown, _ => true
  | .union arms, ascribed => (arms.map fun arm => admits arm ascribed).any id
  | .array element, ascribed =>
    match ascribed with
    | .array ascribedElement => admits element ascribedElement
    | .any => true
    | _ => false
  | inferred, ascribed => ascribed.accepts inferred || inferred.accepts ascribed
termination_by inferred => sizeOf inferred

end CapabilityFlow.Schema
