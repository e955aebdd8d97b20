import CapabilityFlow.Decimal.Nearest
import CapabilityFlow.Value.Basic

/-!
# Reading JSON text

`Value.ofJson?` reads one JSON value, keeping the order of members. A number without a fraction
and an exponent that fits in 64 bits is an integer, and every other number is floating-point.
-/

namespace CapabilityFlow.Json

/-- The blanks of JSON. -/
def skipBlank (s : List Char) : List Char :=
  s.dropWhile fun c => c = ' ' || c = '\t' || c = '\n' || c = '\r'

/-- The value of a hexadecimal digit. -/
def hexValue? (c : Char) : Option Nat :=
  if c.isDigit then some (c.toNat - '0'.toNat)
  else if 'a' ≤ c && c ≤ 'f' then some (c.toNat - 'a'.toNat + 10)
  else if 'A' ≤ c && c ≤ 'F' then some (c.toNat - 'A'.toNat + 10)
  else none

/-- The number written by four hexadecimal digits, and what follows them. -/
def hex4? : List Char → Option (Nat × List Char)
  | a :: b :: c :: d :: r => do
    let a ← hexValue? a
    let b ← hexValue? b
    let c ← hexValue? c
    let d ← hexValue? d
    pure (((a * 16 + b) * 16 + c) * 16 + d, r)
  | _ => none

/-- The character of an escape after its backslash, and what follows it. A character outside the
basic plane is written as two escapes. -/
def escaped? : List Char → Option (Char × List Char)
  | '"' :: r => some ('"', r)
  | '\\' :: r => some ('\\', r)
  | '/' :: r => some ('/', r)
  | 'b' :: r => some (Char.ofNat 8, r)
  | 'f' :: r => some (Char.ofNat 12, r)
  | 'n' :: r => some ('\n', r)
  | 'r' :: r => some ('\r', r)
  | 't' :: r => some ('\t', r)
  | 'u' :: r => do
    let (high, r) ← hex4? r
    if 0xD800 ≤ high && high < 0xDC00 then
      match r with
      | '\\' :: 'u' :: r =>
        let (low, r) ← hex4? r
        if 0xDC00 ≤ low && low < 0xE000 then
          pure (Char.ofNat (0x10000 + (high - 0xD800) * 0x400 + (low - 0xDC00)), r)
        else none
      | _ => none
    else if 0xDC00 ≤ high && high < 0xE000 then none
    else pure (Char.ofNat high, r)
  | _ => none

/-- The rest of a quoted string after its opening quote, and what follows its closing one. -/
def readString (fuel : Nat) (acc : List Char) (s : List Char) : Option (String × List Char) :=
  match fuel, s with
  | 0, _ | _, [] => none
  | _ + 1, '"' :: r => some (String.ofList acc.reverse, r)
  | fuel + 1, '\\' :: r => do
    let (c, r) ← escaped? r
    readString fuel (c :: acc) r
  | fuel + 1, c :: r => if c.toNat < 0x20 then none else readString fuel (c :: acc) r

/-- The natural written by decimal digits. -/
def naturalOf (digits : List Char) : Nat :=
  digits.foldl (fun n c => 10 * n + (c.toNat - '0'.toNat)) 0

/-- Whether an integer fits in 64 bits, signed or unsigned. -/
def fits64 (n : Int) : Bool :=
  -(Nat.pow 2 63 : Int) ≤ n && n < Nat.pow 2 64

/-- The fraction digits after the point, if there is one. -/
def fraction? : List Char → Option (List Char × List Char)
  | '.' :: r =>
    let digits := r.takeWhile Char.isDigit
    if digits.isEmpty then none else some (digits, r.dropWhile Char.isDigit)
  | r => some ([], r)

/-- The exponent, if there is one, and whether there is one. -/
def exponent? : List Char → Option (Int × Bool × List Char)
  | c :: r =>
    if c = 'e' || c = 'E' then
      let (negative, r) := match r with
        | '-' :: r => (true, r)
        | '+' :: r => (false, r)
        | r => (false, r)
      let digits := r.takeWhile Char.isDigit
      if digits.isEmpty then none
      else
        let n : Int := naturalOf digits
        some (if negative then -n else n, true, r.dropWhile Char.isDigit)
    else some (0, false, c :: r)
  | [] => some (0, false, [])

/-- Reads a number, unless it is too large. A negative integer zero is floating-point, to keep its
sign. -/
def readNumber (s : List Char) : Option (Value × List Char) := do
  let (negative, s) := match s with
    | '-' :: r => (true, r)
    | r => (false, r)
  let whole := s.takeWhile Char.isDigit
  let r := s.dropWhile Char.isDigit
  if whole.isEmpty || (whole.length > 1 && whole.head? = some '0') then none
  else
    let (frac, r) ← fraction? r
    let (e, scientific, r) ← exponent? r
    let digits := naturalOf (whole ++ frac)
    let bits := Decimal.nearest negative digits (e - frac.length)
    let signed : Int := if negative then -digits else digits
    if frac.isEmpty && !scientific && fits64 signed && !(negative && digits == 0) then
      pure (.int signed, r)
    else if Decimal.isFinite bits then pure (.float bits, r)
    else none

/-- Removes a word from the front. -/
def word? (w : String) (s : List Char) : Option (List Char) :=
  if w.toList.isPrefixOf s then some (s.drop w.length) else none

mutual

/-- Reads a value; `fuel` bounds the nesting and the number of its parts. -/
def readValue (fuel : Nat) (s : List Char) : Option (Value × List Char) :=
  match fuel with
  | 0 => none
  | fuel + 1 =>
    match skipBlank s with
    | [] => none
    | '"' :: r => (readString (r.length + 1) [] r).map fun (t, r) => (.str t, r)
    | '[' :: r =>
      match skipBlank r with
      | ']' :: r => some (.arr [], r)
      | r => (readItems fuel r).map fun (vs, r) => (.arr vs, r)
    | '\x7b' :: r =>
      match skipBlank r with
      | '\x7d' :: r => some (.obj [], r)
      | r => (readMembers fuel r).map fun (ms, r) => (.obj (Table.ofPairs ms), r)
    | 't' :: r => (word? "rue" r).map fun r => (.bool true, r)
    | 'f' :: r => (word? "alse" r).map fun r => (.bool false, r)
    | 'n' :: r => (word? "ull" r).map fun r => (.null, r)
    | r => readNumber r

/-- Reads the items of an array up to its end. -/
def readItems (fuel : Nat) (s : List Char) : Option (List Value × List Char) :=
  match fuel with
  | 0 => none
  | fuel + 1 => do
    let (v, r) ← readValue fuel s
    match skipBlank r with
    | ',' :: r =>
      let (vs, r) ← readItems fuel r
      pure (v :: vs, r)
    | ']' :: r => pure ([v], r)
    | _ => none

/-- Reads the members of an object up to its end. -/
def readMembers (fuel : Nat) (s : List Char) : Option (List (String × Value) × List Char) :=
  match fuel with
  | 0 => none
  | fuel + 1 =>
    match skipBlank s with
    | '"' :: r => do
      let (k, r) ← readString (r.length + 1) [] r
      match skipBlank r with
      | ':' :: r =>
        let (v, r) ← readValue fuel r
        match skipBlank r with
        | ',' :: r =>
          let (ms, r) ← readMembers fuel r
          pure ((k, v) :: ms, r)
        | '\x7d' :: r => pure ([(k, v)], r)
        | _ => none
      | _ => none
    | _ => none

end

end CapabilityFlow.Json

/-- The value that a JSON text holds. -/
def CapabilityFlow.Value.ofJson? (s : String) : Option Value :=
  match Json.readValue (2 * s.length + 2) s.toList with
  | some (v, r) => if (Json.skipBlank r).isEmpty then some v else none
  | none => none
