import CapabilityFlow.Schema.TypeText

/-!
# Faults of references
-/

namespace CapabilityFlow

/-- Why a text holds no reference. Columns count characters from one. -/
inductive ReferenceError where
  /-- A character that starts no token. -/
  | unexpectedChar (column : Nat) (found : Char)
  | unexpectedToken (expected found : String)
  | unexpectedEnd (expected : String)
  /-- An opening mark without a closing brace. -/
  | unterminated (column : Nat)
  | empty
  /-- An ascribed type that is no type expression. -/
  | invalidType (text : String) (cause : TypeTextError)
deriving DecidableEq, Repr

def ReferenceError.message : ReferenceError → String
  | unexpectedChar column found =>
    s!"Parse error at column {column}: Unexpected character: '{found}'"
  | unexpectedToken expected found => s!"Unexpected token: expected {expected}, found '{found}'"
  | unexpectedEnd expected => s!"Unexpected end of reference: expected {expected}"
  | unterminated column => s!"Unterminated reference starting at column {column}"
  | empty => "Empty reference '$\x7b\x7d'"
  | invalidType text cause => s!"Invalid type annotation '{text}': {cause.message}"

end CapabilityFlow
