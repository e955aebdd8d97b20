import CapabilityFlow.Table

/-!
# Values

The data of documents: what JSON can write, with the members of an object kept in the order of
their declaration. An integer is an integer of the range of 64 bits, signed or unsigned; every
other number is a finite floating-point number, held by its bits so that equality is decidable.
-/

namespace CapabilityFlow

/-- A document value. -/
inductive Value where
  | null
  | bool (b : Bool)
  | int (n : Int)
  | float (bits : UInt64)
  | str (s : String)
  | arr (items : List Value)
  | obj (members : List (String × Value))
deriving Inhabited, Repr

/-- The members of an object. -/
abbrev Members := Table Value

namespace Value

/-! ## Equality -/

mutual

/-- Equality of values is decidable. -/
def decEq : (a b : Value) → Decidable (a = b)
  | .null, b => match b with
    | .null => isTrue rfl
    | .bool _ | .int _ | .float _ | .str _ | .arr _ | .obj _ => isFalse nofun
  | .bool a, b => match b with
    | .bool b => decidable_of_iff (a = b) (by simp)
    | .null | .int _ | .float _ | .str _ | .arr _ | .obj _ => isFalse nofun
  | .int a, b => match b with
    | .int b => decidable_of_iff (a = b) (by simp)
    | .null | .bool _ | .float _ | .str _ | .arr _ | .obj _ => isFalse nofun
  | .float a, b => match b with
    | .float b => decidable_of_iff (a = b) (by simp)
    | .null | .bool _ | .int _ | .str _ | .arr _ | .obj _ => isFalse nofun
  | .str a, b => match b with
    | .str b => decidable_of_iff (a = b) (by simp)
    | .null | .bool _ | .int _ | .float _ | .arr _ | .obj _ => isFalse nofun
  | .arr a, b => match b with
    | .arr b => match decEqItems a b with
      | isTrue h => isTrue (h ▸ rfl)
      | isFalse h => isFalse (h <| Value.arr.inj ·)
    | .null | .bool _ | .int _ | .float _ | .str _ | .obj _ => isFalse nofun
  | .obj a, b => match b with
    | .obj b => match decEqMembers a b with
      | isTrue h => isTrue (h ▸ rfl)
      | isFalse h => isFalse (h <| Value.obj.inj ·)
    | .null | .bool _ | .int _ | .float _ | .str _ | .arr _ => isFalse nofun

def decEqItems : (a b : List Value) → Decidable (a = b)
  | [], b => match b with
    | [] => isTrue rfl
    | _ :: _ => isFalse nofun
  | x :: a, b => match b with
    | [] => isFalse nofun
    | y :: b => match decEq x y, decEqItems a b with
      | isTrue hx, isTrue ha => isTrue (hx ▸ ha ▸ rfl)
      | isFalse hx, _ => isFalse (hx <| List.cons.inj · |>.1)
      | _, isFalse ha => isFalse (ha <| List.cons.inj · |>.2)

def decEqMembers : (a b : List (String × Value)) → Decidable (a = b)
  | [], b => match b with
    | [] => isTrue rfl
    | _ :: _ => isFalse nofun
  | (k, x) :: a, b => match b with
    | [] => isFalse nofun
    | (l, y) :: b =>
      if hk : k = l then
        match decEq x y, decEqMembers a b with
        | isTrue hx, isTrue ha => isTrue (hk ▸ hx ▸ ha ▸ rfl)
        | isFalse hx, _ => isFalse fun h => hx (Prod.mk.inj (List.cons.inj h).1).2
        | _, isFalse ha => isFalse fun h => ha (List.cons.inj h).2
      else isFalse fun h => hk (Prod.mk.inj (List.cons.inj h).1).1

end

instance : DecidableEq Value := decEq

/-! ## Access -/

/-- The member of an object. -/
def get? (v : Value) (name : String) : Option Value :=
  match v with
  | .obj ms => ms.lookup name
  | _ => none

/-- The text of a string. -/
def asStr? : Value → Option String
  | .str s => some s
  | _ => none

end Value

end CapabilityFlow
