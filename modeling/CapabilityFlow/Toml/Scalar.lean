import CapabilityFlow.Decimal.Nearest
import CapabilityFlow.Toml.Item

/-!
# Scalars of TOML

Texts, numbers and moments, each read from the start of a list of characters together with what
follows it.
-/

namespace CapabilityFlow.Toml

/-- Reads from the start of a text, and leaves the rest. -/
abbrev Reader (α : Type) := List Char → Option (α × List Char)

/-! ## Blanks and comments -/

def isBlank (c : Char) : Bool :=
  c = ' ' || c = '\t'

/-- The characters that stand for themselves, quotes and backslashes included. -/
def isTextual (c : Char) : Bool :=
  c = '\t' || (0x20 ≤ c.toNat && c.toNat != 0x7F)

def dropBlanks (s : List Char) : List Char :=
  s.dropWhile isBlank

/-- What follows the end of a line. -/
def newline? : List Char → Option (List Char)
  | '\n' :: r => some r
  | '\r' :: '\n' :: r => some r
  | _ => none

/-- What follows a comment, if one starts here. -/
def dropComment (s : List Char) : List Char :=
  match s with
  | '#' :: r => r.dropWhile isTextual
  | s => s

/-- What follows the rest of a line in which nothing is said any more. -/
def lineEnd? (s : List Char) : Option (List Char) :=
  match dropComment (dropBlanks s) with
  | [] => some []
  | s => newline? s

/-- What follows blanks, comments and line ends. -/
def dropFiller : Nat → List Char → List Char
  | 0, s => s
  | fuel + 1, s =>
    let s := dropBlanks s
    match newline? (dropComment s) with
    | some r => dropFiller fuel r
    | none => s

/-! ## Texts -/

def hexDigit? (c : Char) : Option Nat :=
  if c.isDigit then some (c.toNat - '0'.toNat)
  else if 'a' ≤ c && c ≤ 'f' then some (c.toNat - 'a'.toNat + 10)
  else if 'A' ≤ c && c ≤ 'F' then some (c.toNat - 'A'.toNat + 10)
  else none

/-- The character of a code that is written in the given count of digits. -/
def codePoint? (count : Nat) : Reader Char := fun s => do
  if s.length < count then none
  let n ← (s.take count).foldlM (fun n c => (hexDigit? c).map (16 * n + ·)) 0
  if n.isValidChar then pure (Char.ofNat n, s.drop count) else none

/-- The character that follows a backslash stands for. -/
def escape? : Reader Char
  | 'b' :: r => some ('\x08', r)
  | 't' :: r => some ('\t', r)
  | 'n' :: r => some ('\n', r)
  | 'f' :: r => some ('\x0c', r)
  | 'r' :: r => some ('\r', r)
  | '"' :: r => some ('"', r)
  | '\\' :: r => some ('\\', r)
  | 'u' :: r => codePoint? 4 r
  | 'U' :: r => codePoint? 8 r
  | _ => none

/-- What follows blanks and line ends. -/
def dropBlankLines : List Char → List Char
  | '\r' :: '\n' :: r => dropBlankLines r
  | c :: r => if isBlank c || c = '\n' then dropBlankLines r else c :: r
  | [] => []

/-- What follows a line end after a backslash: the blanks and line ends there are left out. -/
def continuation? (s : List Char) : Option (List Char) :=
  (newline? (dropBlanks s)).map dropBlankLines

/-- The rest of a text between quotes, on one line. -/
def quotedRest (quote : Char) : Nat → Reader (List Char)
  | 0, _ => none
  | _, [] => none
  | fuel + 1, c :: r =>
    if c = quote then some ([], r)
    else if c = '\\' && quote = '"' then do
      let (c, r) ← escape? r
      let (cs, r) ← quotedRest quote fuel r
      pure (c :: cs, r)
    else if isTextual c then do
      let (cs, r) ← quotedRest quote fuel r
      pure (c :: cs, r)
    else none

/-- The rest of a text between tripled quotes. One or two quotes belong to the text, also right
before the three that end it. -/
def tripledRest (quote : Char) : Nat → Reader (List Char)
  | 0, _ => none
  | _, [] => none
  | fuel + 1, c :: r =>
    if c = quote then
      let quotes := (c :: r).takeWhile fun c => c = quote
      let after := (c :: r).dropWhile fun c => c = quote
      if quotes.length < 3 then do
        let (cs, r) ← tripledRest quote fuel after
        pure (quotes ++ cs, r)
      else if quotes.length ≤ 5 then some (quotes.drop 3, after)
      else none
    else if c = '\\' && quote = '"' then
      match continuation? r with
      | some r => tripledRest quote fuel r
      | none => do
        let (c, r) ← escape? r
        let (cs, r) ← tripledRest quote fuel r
        pure (c :: cs, r)
    else if isTextual c then do
      let (cs, r) ← tripledRest quote fuel r
      pure (c :: cs, r)
    else do
      let (cs, r) ← tripledRest quote fuel (← newline? (c :: r))
      pure ('\n' :: cs, r)

/-- A text between the given quotes, on one line. -/
def quotedText (quote : Char) : Reader String
  | [] => none
  | c :: r =>
    if c = quote then (quotedRest quote (r.length + 1) r).map fun p => (String.ofList p.1, p.2)
    else none

/-- A text between the given quotes, perhaps tripled; a line end right after the three is left
out. -/
def anyText (quote : Char) : Reader String := fun s =>
  if [quote, quote, quote].isPrefixOf s then
    let r := s.drop 3
    let r := (newline? r).getD r
    (tripledRest quote (r.length + 1) r).map fun p => (String.ofList p.1, p.2)
  else quotedText quote s

/-! ## Numbers -/

/-- Digits of a class, with single underscores between them. -/
def digitsRest (p : Char → Bool) : Reader (List Char)
  | '_' :: d :: r =>
    if p d then (digitsRest p r).map fun x => (d :: x.1, x.2) else some ([], '_' :: d :: r)
  | d :: r => if p d then (digitsRest p r).map fun x => (d :: x.1, x.2) else some ([], d :: r)
  | [] => some ([], [])

/-- One digit or more. -/
def digits (p : Char → Bool) : Reader (List Char)
  | d :: r => if p d then (digitsRest p r).map fun x => (d :: x.1, x.2) else none
  | [] => none

/-- The natural that digits of a base write. -/
def ofDigits (base : Nat) (ds : List Char) : Nat :=
  ds.foldl (fun n c => base * n + (hexDigit? c).getD 0) 0

/-- A sign, perhaps, and whether it is a minus. -/
def sign : List Char → Bool × List Char
  | '-' :: r => (true, r)
  | '+' :: r => (false, r)
  | r => (false, r)

/-- A decimal integer: its sign and digits; no zero stands before another digit. -/
def decimal : Reader (Bool × List Char) := fun s =>
  let (negative, r) := sign s
  match r with
  | '0' :: r => some ((negative, ['0']), r)
  | r => (digits Char.isDigit r).map fun x => ((negative, x.1), x.2)

/-- An integer in its range. -/
def within (n : Int) : Option Item :=
  if -(Nat.pow 2 63 : Int) ≤ n && n < Nat.pow 2 63 then some (.integer n) else none

/-- An integer of another base after its mark. -/
def based (base : Nat) (p : Char → Bool) : Reader Item := fun s => do
  let (ds, r) ← digits p s
  pure (← within (ofDigits base ds), r)

def integer : Reader Item
  | '0' :: 'x' :: r => based 16 (fun c => (hexDigit? c).isSome) r
  | '0' :: 'o' :: r => based 8 (fun c => '0' ≤ c && c ≤ '7') r
  | '0' :: 'b' :: r => based 2 (fun c => c = '0' || c = '1') r
  | s => do
    let ((negative, ds), r) ← decimal s
    let n : Int := ofDigits 10 ds
    pure (← within (if negative then -n else n), r)

/-- The digits after a point. -/
def fraction : Reader (List Char)
  | '.' :: r => digits Char.isDigit r
  | _ => none

/-- The exponent of a number. -/
def exponent : Reader Int
  | c :: r => do
    if c != 'e' && c != 'E' then none
    let (negative, r) := sign r
    let (ds, r) ← digits Char.isDigit r
    let n : Int := ofDigits 10 ds
    pure (if negative then -n else n, r)
  | [] => none

/-- A floating-point number; it is not above the greatest finite one. -/
def float : Reader Item := fun s =>
  let (_, r) := sign s
  if ['i', 'n', 'f'].isPrefixOf r || ['n', 'a', 'n'].isPrefixOf r then some (.float, r.drop 3)
  else do
    let ((negative, whole), r) ← decimal s
    let (part, r') := (fraction r).getD ([], r)
    let (e, rest) ← match exponent r' with
      | some x => some x
      | none => if part.isEmpty then none else some (0, r')
    let bits := Decimal.nearest negative (ofDigits 10 (whole ++ part)) (e - part.length)
    if Decimal.isFinite bits || negative then some (.float, rest) else none

/-! ## Moments -/

/-- A number of exactly so many digits, between two bounds. -/
def fixed (count least greatest : Nat) : Reader Nat := fun s =>
  let ds := s.take count
  let n := ofDigits 10 ds
  if ds.length = count && ds.all Char.isDigit && least ≤ n && n ≤ greatest then
    some (n, s.drop count)
  else none

/-- What follows a given character. -/
def skip? (c : Char) : List Char → Option (List Char)
  | d :: r => if d = c then some r else none
  | [] => none

/-- The days of a month. -/
def daysIn (year month : Nat) : Nat :=
  if month = 2 then
    if year % 4 = 0 && (year % 100 != 0 || year % 400 = 0) then 29 else 28
  else if [4, 6, 9, 11].contains month then 30
  else 31

/-- What follows a date. -/
def date? (s : List Char) : Option (List Char) := do
  let (year, r) ← fixed 4 0 9999 s
  let (month, r) ← fixed 2 1 12 (← skip? '-' r)
  let (_, r) ← fixed 2 1 (daysIn year month) (← skip? '-' r)
  pure r

/-- What follows a time of day. -/
def time? (s : List Char) : Option (List Char) := do
  let (_, r) ← fixed 2 0 23 s
  let (_, r) ← fixed 2 0 59 (← skip? ':' r)
  let (_, r) ← fixed 2 0 60 (← skip? ':' r)
  match r with
  | '.' :: d :: r => if d.isDigit then pure (r.dropWhile Char.isDigit) else none
  | '.' :: [] => none
  | r => pure r

/-- What follows a difference to universal time, if one is written. -/
def zone? (s : List Char) : Option (List Char) :=
  match s with
  | c :: r =>
    if c = 'Z' || c = 'z' then some r
    else if c = '+' || c = '-' then do
      let (_, r) ← fixed 2 0 23 r
      let (_, r) ← fixed 2 0 59 (← skip? ':' r)
      pure r
    else some s
  | [] => some s

/-- A date, a time, or both. -/
def moment (s : List Char) : Option (Item × List Char) :=
  match date? s with
  | none => (time? s).map (.moment, ·)
  | some r =>
    match r with
    | c :: after =>
      if c = 'T' || c = 't' || c = ' ' then
        match time? after with
        | some r => (zone? r).map (.moment, ·)
        | none => some (.moment, r)
      else some (.moment, r)
    | [] => some (.moment, [])

/-- A scalar. -/
def scalar (s : List Char) : Option (Item × List Char) :=
  match s with
  | '"' :: _ => (anyText '"' s).map fun p => (.text p.1, p.2)
  | '\x27' :: _ => (anyText '\x27' s).map fun p => (.text p.1, p.2)
  | 't' :: 'r' :: 'u' :: 'e' :: r => some (.boolean true, r)
  | 'f' :: 'a' :: 'l' :: 's' :: 'e' :: r => some (.boolean false, r)
  | s =>
    match moment s with
    | some r => some r
    | none =>
      match float s with
      | some r => some r
      | none => integer s

end CapabilityFlow.Toml
