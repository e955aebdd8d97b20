import CapabilityFlow.Value.Basic

/-!
# Schemas

A `Schema` describes the values that may flow somewhere, with every reference to another schema
already followed. A union keeps its arms as they were declared, so that inference can tell when it
has no unique type. The text of a schema (`Schema.text`) names an object by `object` alone.
-/

namespace CapabilityFlow

/-- The types of values without parts. -/
inductive Scalar where
  | string
  | number
  | integer
  | boolean
  | null
deriving DecidableEq, Repr, Inhabited

namespace Scalar

def name : Scalar → String
  | string => "string"
  | number => "number"
  | integer => "integer"
  | boolean => "boolean"
  | null => "null"

/-- The type of a name. -/
def ofName? : String → Option Scalar
  | "string" => some string
  | "number" => some number
  | "integer" => some integer
  | "boolean" => some boolean
  | "null" => some null
  | _ => none

/-- An integer is a number; otherwise a type accepts only itself. -/
def accepts (expected found : Scalar) : Bool :=
  expected = found || (expected = number && found = integer)

end Scalar

/-- A type description without references. -/
inductive Schema where
  /-- No constraint. -/
  | any
  /-- Declared as not known; nothing can be inferred from it. -/
  | unknown
  | scalar (type : Scalar)
  /-- The declared fields in order, the required names in increasing order, and whether other
  fields may appear. -/
  | object (fields : List (String × Schema)) (required : List String) (isOpen : Bool)
  | array (element : Schema)
  /-- The candidates in order. -/
  | union (arms : List Schema)
deriving Inhabited, Repr

namespace Schema

mutual

/-- Equality of schemas is decidable. -/
def decEq : (a b : Schema) → Decidable (a = b)
  | .any, b => match b with
    | .any => isTrue rfl
    | .unknown | .scalar _ | .object _ _ _ | .array _ | .union _ => isFalse nofun
  | .unknown, b => match b with
    | .unknown => isTrue rfl
    | .any | .scalar _ | .object _ _ _ | .array _ | .union _ => isFalse nofun
  | .scalar a, b => match b with
    | .scalar b => decidable_of_iff (a = b) (by simp)
    | .any | .unknown | .object _ _ _ | .array _ | .union _ => isFalse nofun
  | .object a r o, b => match b with
    | .object b r' o' =>
      if h : r = r' ∧ o = o' then
        match decEqFields a b with
        | isTrue ha => isTrue (h.1 ▸ h.2 ▸ ha ▸ rfl)
        | isFalse ha => isFalse fun e => ha (Schema.object.inj e).1
      else isFalse fun e => h (Schema.object.inj e).2
    | .any | .unknown | .scalar _ | .array _ | .union _ => isFalse nofun
  | .array a, b => match b with
    | .array b => match decEq a b with
      | isTrue h => isTrue (h ▸ rfl)
      | isFalse h => isFalse (h <| Schema.array.inj ·)
    | .any | .unknown | .scalar _ | .object _ _ _ | .union _ => isFalse nofun
  | .union a, b => match b with
    | .union b => match decEqArms a b with
      | isTrue h => isTrue (h ▸ rfl)
      | isFalse h => isFalse (h <| Schema.union.inj ·)
    | .any | .unknown | .scalar _ | .object _ _ _ | .array _ => isFalse nofun

def decEqArms : (a b : List Schema) → Decidable (a = b)
  | [], b => match b with
    | [] => isTrue rfl
    | _ :: _ => isFalse nofun
  | x :: a, b => match b with
    | [] => isFalse nofun
    | y :: b => match decEq x y, decEqArms a b with
      | isTrue hx, isTrue ha => isTrue (hx ▸ ha ▸ rfl)
      | isFalse hx, _ => isFalse (hx <| List.cons.inj · |>.1)
      | _, isFalse ha => isFalse (ha <| List.cons.inj · |>.2)

def decEqFields : (a b : List (String × Schema)) → Decidable (a = b)
  | [], b => match b with
    | [] => isTrue rfl
    | _ :: _ => isFalse nofun
  | (k, x) :: a, b => match b with
    | [] => isFalse nofun
    | (l, y) :: b =>
      if hk : k = l then
        match decEq x y, decEqFields a b with
        | isTrue hx, isTrue ha => isTrue (hk ▸ hx ▸ ha ▸ rfl)
        | isFalse hx, _ => isFalse fun h => hx (Prod.mk.inj (List.cons.inj h).1).2
        | _, isFalse ha => isFalse fun h => ha (List.cons.inj h).2
      else isFalse fun h => hk (Prod.mk.inj (List.cons.inj h).1).1

end

instance : DecidableEq Schema := decEq

/-! ## Common schemas -/

/-- An object of which nothing is declared. -/
def anyObject : Schema := .object [] [] true

/-- A list of candidates as one schema: a single one stands for itself. -/
def ofArms : List Schema → Schema
  | [s] => s
  | arms => .union arms

/-- The type of a literal value. The items of an array are not looked at, nor the members of an
object. -/
def ofValue : Value → Schema
  | .null => .scalar .null
  | .bool _ => .scalar .boolean
  | .int _ => .scalar .integer
  | .float _ => .scalar .number
  | .str _ => .scalar .string
  | .arr _ => .array .any
  | .obj _ => anyObject

/-! ## Observations -/

/-- A declared field of an object. -/
def field? (s : Schema) (name : String) : Option Schema :=
  match s with
  | .object fields _ _ => Table.get? fields name
  | _ => none

/-- Whether inference cannot determine a unique type. -/
def isAmbiguous : Schema → Bool
  | .union _ | .unknown => true
  | .array element => element.isAmbiguous
  | _ => false

/-- The text of a schema. -/
def text : Schema → String
  | .any => "any"
  | .unknown => "unknown"
  | .scalar t => t.name
  | .object _ _ _ => "object"
  | .array element => "array<" ++ element.text ++ ">"
  | .union arms => "|".intercalate (arms.map text)
termination_by s => sizeOf s

mutual

/-- Equality up to the order in which fields are declared. -/
def same : Schema → Schema → Bool
  | .any, .any | .unknown, .unknown => true
  | .scalar a, .scalar b => a = b
  | .object fields required isOpen, .object fields' required' isOpen' =>
    fields.length = fields'.length && required = required' && isOpen = isOpen' &&
      sameFields fields fields'
  | .array a, .array b => same a b
  | .union arms, .union arms' => sameArms arms arms'
  | _, _ => false

/-- Whether each field of the first list has the same schema in the second. -/
def sameFields : List (String × Schema) → List (String × Schema) → Bool
  | [], _ => true
  | (name, s) :: rest, fields =>
    (match Table.get? fields name with
      | some s' => same s s'
      | none => false) && sameFields rest fields

/-- Whether two lists hold the same schemas in the same order. -/
def sameArms : List Schema → List Schema → Bool
  | [], [] => true
  | s :: rest, s' :: rest' => same s s' && sameArms rest rest'
  | _, _ => false

end

end Schema

end CapabilityFlow
