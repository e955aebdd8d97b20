import CapabilityFlow.Decimal.Layout
import CapabilityFlow.Value.Basic

/-!
# JSON text

`Value.toJson` writes a value without blanks, `Value.toPrettyJson` with one member or item a line
and two spaces of indent a level.
-/

namespace CapabilityFlow.Json

/-- A hexadecimal digit below sixteen, in lower case. -/
def hexDigit (n : Nat) : Char :=
  Nat.digitChar n

/-- A character as it stands in a quoted string: only quotes, backslashes and control characters
below the space are escaped. -/
def escape (c : Char) : List Char :=
  if c = '"' then ['\\', '"']
  else if c = '\\' then ['\\', '\\']
  else if c = '\n' then ['\\', 'n']
  else if c = '\r' then ['\\', 'r']
  else if c = '\t' then ['\\', 't']
  else if c.toNat = 8 then ['\\', 'b']
  else if c.toNat = 12 then ['\\', 'f']
  else if c.toNat < 0x20 then
    ['\\', 'u', '0', '0', hexDigit (c.toNat / 16), hexDigit (c.toNat % 16)]
  else [c]

/-- A quoted string. -/
def quote (s : String) : String :=
  String.ofList ('"' :: s.toList.flatMap escape ++ ['"'])

/-- Floating-point numbers are positional for leading exponents from -5 to 15, and an exponent
always has its sign. -/
def floats : Decimal.Layout := ⟨-5, 15, true⟩

end CapabilityFlow.Json

namespace CapabilityFlow.Value

/-- The JSON text of a value, without blanks. -/
def toJson : Value → String
  | .null => "null"
  | .bool b => if b then "true" else "false"
  | .int n => toString n
  | .float bits => Json.floats.write bits
  | .str s => Json.quote s
  | .arr items => "[" ++ ",".intercalate (items.map toJson) ++ "]"
  | .obj ms =>
    "\x7b" ++ ",".intercalate (ms.map fun m => Json.quote m.1 ++ ":" ++ toJson m.2) ++ "\x7d"
termination_by v => sizeOf v
decreasing_by
  · have := List.sizeOf_lt_of_mem ‹_ ∈ _›
    simp; omega
  · have := Table.sizeOf_lt_of_mem ‹_ ∈ _›
    simp; omega

/-- The blanks before a line at a level. -/
def indentation (level : Nat) : String :=
  String.ofList (List.replicate (2 * level) ' ')

/-- The JSON text of a value inside a text at the given level. -/
def toPrettyJsonAt (level : Nat) : Value → String
  | .arr [] => "[]"
  | .obj [] => "\x7b\x7d"
  | .arr items =>
    let lines := items.map fun v => indentation (level + 1) ++ toPrettyJsonAt (level + 1) v
    "[\n" ++ ",\n".intercalate lines ++ "\n" ++ indentation level ++ "]"
  | .obj ms =>
    let lines := ms.map fun m =>
      indentation (level + 1) ++ Json.quote m.1 ++ ": " ++ toPrettyJsonAt (level + 1) m.2
    "\x7b\n" ++ ",\n".intercalate lines ++ "\n" ++ indentation level ++ "\x7d"
  | v => v.toJson
termination_by v => sizeOf v
decreasing_by
  · have := List.sizeOf_lt_of_mem ‹_ ∈ _›
    simp; omega
  · have := Table.sizeOf_lt_of_mem ‹_ ∈ _›
    simp; omega

/-- The JSON text of a value, one member or item a line. -/
def toPrettyJson (v : Value) : String :=
  v.toPrettyJsonAt 0

end CapabilityFlow.Value
