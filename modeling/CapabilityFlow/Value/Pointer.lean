import CapabilityFlow.Value.Basic

/-!
# Pointers into values

A pointer is empty, for the whole value, or a slash and a token for each step down, as RFC 6901
lays down: in a token `~1` stands for a slash and `~0` for a tilde. An array is entered by an index
without leading zeros.
-/

namespace CapabilityFlow

namespace Pointer

/-- The tokens of a text, which stand between slashes. -/
def splitSlashes : List Char → List (List Char)
  | [] => [[]]
  | c :: r =>
    if c = '/' then [] :: splitSlashes r
    else
      match splitSlashes r with
      | [] => [[c]]
      | token :: tokens => (c :: token) :: tokens

/-- Replaces each tilde that a given digit follows. -/
def replaceTilde (digit : Char) (by' : Char) : List Char → List Char
  | '~' :: c :: r => if c = digit then by' :: replaceTilde digit by' r
    else '~' :: replaceTilde digit by' (c :: r)
  | c :: r => c :: replaceTilde digit by' r
  | [] => []

/-- What a token stands for. -/
def unescape (token : List Char) : String :=
  String.ofList (replaceTilde '0' '~' (replaceTilde '1' '/' token))

/-- The tokens of a pointer. -/
def tokens? (pointer : String) : Option (List String) :=
  match pointer.toList with
  | [] => some []
  | '/' :: r => some ((splitSlashes r).map unescape)
  | _ => none

/-- The index that a token writes: no leading zero, and below `2 ^ 64`. -/
def index? (token : String) : Option Nat :=
  let digits := token.toList
  if digits.isEmpty || !digits.all Char.isDigit ||
      (digits.length > 1 && digits.head? = some '0') then
    none
  else
    let n := digits.foldl (fun n c => 10 * n + (c.toNat - '0'.toNat)) 0
    if n < Nat.pow 2 64 then some n else none

/-- One step down. -/
def step? (v : Value) (token : String) : Option Value :=
  match v with
  | .obj members => Table.get? members token
  | .arr items => (index? token).bind (items[·]?)
  | _ => none

end Pointer

/-- The part of a value that a pointer selects. -/
def Value.pointed? (v : Value) (pointer : String) : Option Value :=
  (Pointer.tokens? pointer).bind fun tokens => tokens.foldlM Pointer.step? v

end CapabilityFlow
