import CapabilityFlow.Decimal.Nearest
import CapabilityFlow.Value.Basic
import CapabilityFlow.Yaml.Node

/-!
# What scalars stand for

A plain scalar may stand for null, a Boolean, an integer or a floating-point number, and every
other one for its text. `Node.toValue?` gives the value of a node.
-/

namespace CapabilityFlow.Yaml

def isNull (s : String) : Bool :=
  s = "null" || s = "Null" || s = "NULL" || s = "~"

def bool? (s : String) : Option Bool :=
  if s = "true" || s = "True" || s = "TRUE" then some true
  else if s = "false" || s = "False" || s = "FALSE" then some false
  else none

/-! ## Integers -/

/-- The natural that digits of a base write; there is one digit at least. -/
def natural? (base : Nat) (digits : List Char) : Option Nat :=
  if digits.isEmpty then none
  else
    digits.foldlM
      (fun n c => (hexValue? c).bind fun d => if d < base then some (base * n + d) else none) 0

/-- A text without a sign at its start. -/
def dropSign : List Char → List Char
  | '+' :: r => r
  | '-' :: r => r
  | r => r

/-- Zeros or other digits after a zero, perhaps after a sign, which make no number. -/
def hasLeadingZero (s : List Char) : Bool :=
  match dropSign s with
  | '0' :: d :: r => (d :: r).all Char.isDigit
  | _ => false

/-- The magnitude of an integer without a sign; one with a base mark in it is never decimal. -/
def magnitude? (s : List Char) : Option Nat :=
  match s with
  | '0' :: 'x' :: r => natural? 16 r
  | '0' :: 'o' :: r => natural? 8 r
  | '0' :: 'b' :: r => natural? 2 r
  | _ => natural? 10 s

/-- The natural that a scalar writes, perhaps after a plus sign. -/
def unsigned? (s : List Char) : Option Nat :=
  if hasLeadingZero s then none
  else
    match s with
    | '+' :: r => magnitude? r
    | r => magnitude? r

/-- The magnitude of the integer that a scalar writes after a minus sign. -/
def negated? (s : List Char) : Option Nat :=
  if hasLeadingZero s then none
  else
    match s with
    | '-' :: r => magnitude? r
    | _ => none

/-- What an integer is held in. -/
inductive Held where
  | int (n : Int)
  /-- Beyond 64 bits, but not beyond 128. -/
  | refused

/-- The integer that a scalar writes; beyond 128 bits it writes none. -/
def integer? (s : List Char) : Option Held :=
  match unsigned? s, negated? s with
  | some n, _ =>
    if n < Nat.pow 2 64 then some (.int n) else if n < Nat.pow 2 128 then some .refused else none
  | none, some n =>
    if n ≤ Nat.pow 2 63 then some (.int (-n)) else if n ≤ Nat.pow 2 127 then some .refused else none
  | none, none => none

/-! ## Floating-point numbers -/

/-- The digits before and after the point, and the exponent, that a number without a sign writes. -/
def decimal? (s : List Char) : Option (List Char × List Char × Int) := do
  let whole := s.takeWhile Char.isDigit
  let r := s.dropWhile Char.isDigit
  let (fraction, r) := match r with
    | '.' :: r => (r.takeWhile Char.isDigit, r.dropWhile Char.isDigit)
    | r => ([], r)
  if whole.isEmpty && fraction.isEmpty then none
  match r with
  | [] => pure (whole, fraction, 0)
  | e :: r =>
    if e = 'e' || e = 'E' then
      let digits := dropSign r
      let n ← natural? 10 (if digits.all Char.isDigit then digits else [])
      pure (whole, fraction, if r.head? = some '-' then -(n : Int) else n)
    else none

/-- The finite number that a scalar writes. -/
def finite? (s : List Char) : Option UInt64 := do
  let (whole, fraction, e) ← decimal? (dropSign s)
  let digits ← natural? 10 (whole ++ fraction)
  let bits := Decimal.nearest (s.head? = some '-') digits (e - fraction.length)
  if Decimal.isFinite bits then some bits else none

/-- Whether a scalar writes an infinity or no number. -/
def isNonFinite (s : String) : Bool :=
  [".inf", ".Inf", ".INF", "+.inf", "+.Inf", "+.INF", "-.inf", "-.Inf", "-.INF",
    ".nan", ".NaN", ".NAN"].contains s

/-- The value of a floating-point number; one that is not finite is null. -/
def float? (s : String) : Option Value :=
  if isNonFinite s then some .null else (finite? s.toList).map .float

/-! ## Values -/

/-- The value of a plain scalar without a tag. -/
def plain? (s : String) : Option Value :=
  if s.isEmpty || isNull s then some .null
  else
    match bool? s with
    | some b => some (.bool b)
    | none =>
      match integer? s.toList with
      | some (.int n) => some (.int n)
      | some .refused => none
      | none =>
        if hasLeadingZero s.toList then some (.str s)
        else some ((float? s).getD (.str s))

/-- The tags of the types that have one of their own. -/
def coreTag (name : String) : String := "tag:yaml.org,2002:" ++ name

/-- Whether a tag is one of the document's own, which stands for no value. -/
def isLocalTag (tag : String) : Bool :=
  tag.toList.head? = some '!'

/-- The value of a scalar. A tag of a type asks for that type, and any other for the text. -/
def scalar? (style : Style) (tag : Option String) (s : String) : Option Value :=
  match tag with
  | none => if style = .plain then plain? s else some (.str s)
  | some tag =>
    if isLocalTag tag then none
    else if tag = coreTag "bool" then (bool? s).map .bool
    else if tag = coreTag "int" then
      match integer? s.toList with
      | some (.int n) => some (.int n)
      | _ => none
    else if tag = coreTag "float" then float? s
    else if tag = coreTag "null" then (if isNull s then some .null else none)
    else some (.str s)

namespace Node

/-- The text of a key: of a scalar, as it is written. -/
def key? : Node → Option String
  | .scalar _ _ text => some text
  | _ => none

/-- Whether a collection has no tag of the document's own. -/
def isUntagged (tag : Option String) : Bool :=
  !(tag.map isLocalTag).getD false

/-- The value of a node without aliases. -/
def toValue? : Node → Option Value
  | .scalar style tag text => scalar? style tag text
  | .sequence tag items => do
    if !isUntagged tag then none
    pure (.arr (← items.mapM toValue?))
  | .mapping tag entries => do
    if !isUntagged tag then none
    let members ← entries.mapM fun e => do pure (← e.1.key?, ← toValue? e.2)
    pure (.obj (Table.ofPairs members))
  | .aliasOf _ => none
termination_by n => sizeOf n
decreasing_by
  · have := List.sizeOf_lt_of_mem ‹_ ∈ _›
    simp; omega
  · have h := List.sizeOf_lt_of_mem ‹_ ∈ _›
    have : sizeOf e = 1 + sizeOf e.1 + sizeOf e.2 := by cases e; rfl
    simp; omega

end Node

/-- The value of a text that holds one document, or none. -/
def value? (text : String) : Option Value := do
  match ← (← Document.ofText? text).tree? with
  | none => pure .null
  | some n => n.toValue?

end CapabilityFlow.Yaml
