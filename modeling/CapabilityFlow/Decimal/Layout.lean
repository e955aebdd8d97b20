import CapabilityFlow.Decimal.Shortest

/-!
# The written form of a floating-point number

A `Layout` fixes which magnitudes are written positionally and how an exponent is marked;
`Layout.write` lays out the shortest decimal of a number accordingly.
-/

namespace CapabilityFlow.Decimal

/-- How a floating-point number is written. -/
structure Layout where
  /-- The least exponent of the leading digit that is written positionally. -/
  leastPositional : Int
  /-- The greatest exponent of the leading digit that is written positionally. -/
  greatestPositional : Int
  /-- Whether a positive exponent carries a sign. -/
  plusSign : Bool

/-- The digits and the scale in positional form, always with a point. -/
def positional (digits : List Char) (scale : Int) : List Char :=
  let point := (digits.length : Int) + scale
  if 0 ≤ scale then digits ++ List.replicate scale.toNat '0' ++ ['.', '0']
  else if 0 < point then digits.take point.toNat ++ '.' :: digits.drop point.toNat
  else '0' :: '.' :: List.replicate (-point).toNat '0' ++ digits

/-- An exponent with its sign. -/
def Layout.exponentChars (l : Layout) (e : Int) : List Char :=
  let shown := Nat.toDigits 10 e.natAbs
  if e < 0 then '-' :: shown else if l.plusSign then '+' :: shown else shown

/-- The digits and the scale in scientific form. -/
def Layout.scientific (l : Layout) (digits : List Char) (scale : Int) : List Char :=
  let e := (digits.length : Int) + scale - 1
  match digits with
  | [] => []
  | [d] => d :: 'e' :: l.exponentChars e
  | d :: rest => d :: '.' :: rest ++ 'e' :: l.exponentChars e

/-- The written form of a finite number. -/
def Layout.write (l : Layout) (bits : UInt64) : String :=
  let d := shortest bits
  let digits := Nat.toDigits 10 d.digits
  let e := (digits.length : Int) + d.scale - 1
  let magnitude :=
    if l.leastPositional ≤ e && e ≤ l.greatestPositional then positional digits d.scale
    else l.scientific digits d.scale
  String.ofList (if isNegative bits then '-' :: magnitude else magnitude)

end CapabilityFlow.Decimal
