import CapabilityFlow.Decimal.Layout
import CapabilityFlow.Text.Quoted
import CapabilityFlow.Value.Basic

/-!
# Decoding values

Readers that turn a value into typed data, and the causes for which they refuse one. A record is
read member by member in the order in which they stand, so the first fault there is the one
reported; names that a record does not know are left to the record.
-/

namespace CapabilityFlow

/-- Why a value does not decode. -/
inductive DecodeError where
  | invalidType (found : Value) (expected : String)
  | invalidValue (found : Value) (expected : String)
  | invalidLength (length : Nat) (expected : String)
  | unknownVariant (found : String) (variants : List String)
  | missingField (name : String)
  | duplicateField (name : String)
deriving DecidableEq, Repr

namespace DecodeError

/-- In a message a floating-point number is never scientific. -/
def floats : Decimal.Layout := ⟨-400, 400, false⟩

/-- A value in words. -/
def describe : Value → String
  | .null => "null"
  | .bool b => s!"boolean `{b}`"
  | .int n => s!"integer `{n}`"
  | .float bits => s!"floating point `{floats.write bits}`"
  | .str s => "string " ++ Text.quoted s
  | .arr _ => "sequence"
  | .obj _ => "map"

/-- A name in the quotes of messages. -/
def marked (name : String) : String :=
  s!"`{name}`"

/-- The names that could have stood there. -/
def choice : List String → String
  | [] => "there are no variants"
  | [a] => "expected " ++ marked a
  | [a, b] => "expected " ++ marked a ++ " or " ++ marked b
  | names => "expected one of " ++ ", ".intercalate (names.map marked)

def message : DecodeError → String
  | invalidType found expected => s!"invalid type: {describe found}, expected {expected}"
  | invalidValue found expected => s!"invalid value: {describe found}, expected {expected}"
  | invalidLength length expected => s!"invalid length {length}, expected {expected}"
  | unknownVariant found variants => s!"unknown variant {marked found}, {choice variants}"
  | missingField name => s!"missing field {marked name}"
  | duplicateField name => s!"duplicate field {marked name}"

end DecodeError

namespace Decode

/-- Reads a value of a type. -/
abbrev Reader (α : Type) := Value → Except DecodeError α

variable {α δ : Type}

def value : Reader Value := .ok

def string : Reader String
  | .str s => .ok s
  | v => .error (.invalidType v "a string")

def bool : Reader Bool
  | .bool b => .ok b
  | v => .error (.invalidType v "a boolean")

/-- A natural of 32 bits. -/
def natural32 : Reader Nat
  | .int n =>
    if 0 ≤ n && n < Nat.pow 2 32 then .ok n.toNat else .error (.invalidValue (.int n) "u32")
  | v => .error (.invalidType v "u32")

/-- A value that may be null. -/
def optional (read : Reader α) : Reader (Option α)
  | .null => .ok none
  | v => (read v).map some

def list (read : Reader α) : Reader (List α)
  | .arr items => items.mapM read
  | v => .error (.invalidType v "a sequence")

/-- Any names with values of one type. -/
def table (read : Reader α) : Reader (Table α)
  | .obj members => members.mapM fun (name, v) => (read v).map (name, ·)
  | v => .error (.invalidType v "a map")

/-- One of named variants, written as its name or as a mapping from its name to null. -/
def variant (names : List String) (ofName? : String → Option α) : Reader α
  | .str name => named name
  | .obj [(name, content)] => do
    let a ← named name
    if content = .null then .ok a else .error (.invalidType content "unit")
  | .obj members => .error (.invalidValue (.obj members) "map with a single key")
  | v => .error (.invalidType v "string or map")
where
  named (name : String) : Except DecodeError α :=
    match ofName? name with
    | some a => .ok a
    | none => .error (.unknownVariant name names)

/-! ## Records -/

/-- Fills in a field that must not be there yet. -/
def once (name : String) (old : Option α) (read : Reader α) (v : Value) :
    Except DecodeError (Option α) :=
  match old with
  | some _ => .error (.duplicateField name)
  | none => (read v).map some

/-- A field that must be there. -/
def required (name : String) : Option α → Except DecodeError α
  | some a => .ok a
  | none => .error (.missingField name)

/-- An item of a record that is written as a list. -/
def item (items : List Value) (i : Nat) (expected : String) (read : Reader α) :
    Except DecodeError α :=
  match items[i]? with
  | some v => read v
  | none => .error (.invalidLength i expected)

/-- An item of a record that is written as a list, with what it is when the list ends before. -/
def itemOr (items : List Value) (i : Nat) (default : α) (read : Reader α) :
    Except DecodeError α :=
  match items[i]? with
  | some v => read v
  | none => .ok default

/-- Refuses a list longer than the record that it writes. -/
def atMost (items : List Value) (n : Nat) : Except DecodeError Unit :=
  if items.length > n then .error (.invalidLength items.length "fewer elements in array")
  else .ok ()

/-- Reads a record from its members in order. -/
def members (put : δ → String → Value → Except DecodeError δ) (start : δ) (ms : Members) :
    Except DecodeError δ :=
  ms.foldlM (fun d m => put d m.1 m.2) start

end Decode

end CapabilityFlow
