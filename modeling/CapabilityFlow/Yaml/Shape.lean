import CapabilityFlow.Yaml.Resolution

/-!
# Reading documents with an expectation

Where it is known what a place holds, a scalar is read for that: a text is the scalar as it is
written, whatever it would stand for by itself, and a collection may be left empty. `Shape.value?`
reads a node so; a mapping that is read as a record keeps names that occur twice.
-/

namespace CapabilityFlow.Yaml

/-- What a place in a document holds. -/
inductive Shape where
  | any
  | text
  | natural
  /-- One of named variants. -/
  | variant
  | optional (s : Shape)
  | list (s : Shape)
  /-- Any names, with values of one shape. -/
  | table (s : Shape)
  /-- Known names, and whether others are kept. -/
  | record (fields : List (String × Shape)) (keepsOthers : Bool)

namespace Shape

/-- Whether nothing is written for a node. -/
def isVoid : Node → Bool
  | .scalar .plain _ "" => true
  | _ => false

/-- Whether a node is null where it may be. Fails where its tag says null and its text does not. -/
def isNullNode? : Node → Option Bool
  | .scalar .plain none s => some (s.isEmpty || isNull s)
  | .scalar .plain (some tag) s =>
    if tag = coreTag "null" then (if isNull s then some true else none) else some false
  | _ => some false

/-- The natural of a scalar, below `2 ^ 64`. -/
def natural? : Node → Option Value
  | .scalar style tag s =>
    if style = .plain || (style = .literal && tag = some (coreTag "int")) then
      match unsigned? s.toList with
      | some n => if n < Nat.pow 2 64 then some (.int n) else none
      | none => none
    else none
  | _ => none

/-- The name of a variant: the text of a scalar, or its tag when that is the document's own and
nothing else is written. -/
def variant? : Node → Option Value
  | .scalar style (some tag) s =>
    if isLocalTag tag then
      if style = .plain && (s.isEmpty || isNull s) then
        match tag.toList with
        | ['!'] => some (.str tag)
        | _ :: name => some (.str (String.ofList name))
        | [] => none
      else none
    else some (.str s)
  | .scalar _ none s => some (.str s)
  | _ => none

/-- Whether every name in the mappings of a node stands for a text by itself. -/
def hasTextNames : Node → Bool
  | .sequence _ items => (items.map hasTextNames).and
  | .mapping _ entries => (entries.map fun e => isText e.1.toValue? && hasTextNames e.2).and
  | _ => true
termination_by n => sizeOf n
decreasing_by
  · have := List.sizeOf_lt_of_mem ‹_ ∈ _›
    simp; omega
  · have := List.sizeOf_lt_of_mem ‹_ ∈ _›
    have : sizeOf e = 1 + sizeOf e.1 + sizeOf e.2 := by cases e; rfl
    simp; omega
where
  isText : Option Value → Bool
    | some (.str _) => true
    | _ => false

mutual

/-- The value of a node without aliases, read for a shape. -/
def value? : Shape → Node → Option Value
  | .any, n => n.toValue?
  | .text, n => n.key?.map .str
  | .natural, n => natural? n
  | .variant, n => variant? n
  | .optional s, n => do if ← isNullNode? n then pure .null else value? s n
  | .list s, n =>
    match n with
    | .sequence _ items => (items.mapM (value? s)).map .arr
    | n => if isVoid n then some (.arr []) else none
  | .table s, n =>
    match n with
    | .mapping _ entries => do
      let members ← entries.mapM fun e => do pure (← e.1.key?, ← value? s e.2)
      pure (.obj (Table.ofPairs members))
    | n => if isVoid n then some (.obj []) else none
  | .record fields keepsOthers, n =>
    match n with
    | .mapping _ entries => do
      let members ← entries.mapM fun e => do
        let name ← e.1.key?
        field? fields keepsOthers name e.2
      pure (.obj members.flatten)
    | n => if isVoid n then some (.obj []) else none

/-- A member of a record, read for the shape of its name. One that is kept although its name is not
known holds no names but texts. -/
def field? : List (String × Shape) → Bool → String → Node → Option Members
  | [], keepsOthers, name, n =>
    if !keepsOthers then some []
    else if hasTextNames n then n.toValue?.map fun v => [(name, v)]
    else none
  | (known, s) :: rest, keepsOthers, name, n =>
    if known = name then (value? s n).map fun v => [(name, v)]
    else field? rest keepsOthers name n

end

end Shape

/-- The value of a text that holds one document, or none, read for a shape. -/
def shapedValue? (s : Shape) (text : String) : Option Value := do
  s.value? ((← (← Document.ofText? text).tree?).getD .empty)

end CapabilityFlow.Yaml
