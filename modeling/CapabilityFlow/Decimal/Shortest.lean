/-!
# The shortest decimal of a floating-point number

A finite binary floating-point number of 64 bits stands for `significand · 2 ^ exponent`. Of the
decimals that lie nearer to it than to any other such number, `shortest` gives the one with the
fewest digits, and of those the nearest; of two equally near the even one.
-/

namespace CapabilityFlow.Decimal

/-- The sign bit. -/
def isNegative (bits : UInt64) : Bool :=
  bits.toNat ≥ Nat.pow 2 63

/-- The exponent field. -/
def exponentField (bits : UInt64) : Nat :=
  bits.toNat / Nat.pow 2 52 % Nat.pow 2 11

/-- The fraction field. -/
def fractionField (bits : UInt64) : Nat :=
  bits.toNat % Nat.pow 2 52

/-- Neither an infinity nor a NaN. -/
def isFinite (bits : UInt64) : Bool :=
  exponentField bits < 2047

/-- The integer `m` of the magnitude `m · 2 ^ q`. -/
def significand (bits : UInt64) : Nat :=
  if exponentField bits = 0 then fractionField bits else fractionField bits + Nat.pow 2 52

/-- The exponent `q` of the magnitude `m · 2 ^ q`. -/
def exponent (bits : UInt64) : Int :=
  if exponentField bits = 0 then -1074 else (exponentField bits : Int) - 1075

/-- A magnitude as a fraction of two naturals. -/
structure Ratio where
  num : Nat
  den : Nat

/-- The fraction `m · 2 ^ q`. -/
def Ratio.ofBinary (m : Nat) (q : Int) : Ratio :=
  if 0 ≤ q then ⟨m * Nat.pow 2 q.toNat, 1⟩ else ⟨m, Nat.pow 2 (-q).toNat⟩

/-- The fraction `m · 10 ^ k`. -/
def Ratio.ofDecimal (m : Nat) (k : Int) : Ratio :=
  if 0 ≤ k then ⟨m * Nat.pow 10 k.toNat, 1⟩ else ⟨m, Nat.pow 10 (-k).toNat⟩

def Ratio.lt (a b : Ratio) : Bool :=
  a.num * b.den < b.num * a.den

def Ratio.le (a b : Ratio) : Bool :=
  a.num * b.den ≤ b.num * a.den

/-- The distance between two magnitudes. -/
def Ratio.dist (a b : Ratio) : Ratio :=
  ⟨(a.num * b.den - b.num * a.den) + (b.num * a.den - a.num * b.den), a.den * b.den⟩

/-- The interval of magnitudes that round to a given one. -/
structure Rounding where
  low : Ratio
  high : Ratio
  /-- Whether the two ends belong to it. -/
  closed : Bool

def Rounding.contains (r : Rounding) (x : Ratio) : Bool :=
  if r.closed then r.low.le x && x.le r.high else r.low.lt x && x.lt r.high

/-- The magnitudes that round to the magnitude of `bits`. A neighbour below a power of two is at
half the distance of the one above. -/
def Rounding.of (bits : UInt64) : Rounding :=
  let m := significand bits
  let q := exponent bits
  let gap := if fractionField bits = 0 && exponentField bits > 1 then 1 else 2
  ⟨.ofBinary (4 * m - gap) (q - 2), .ofBinary (4 * m + 2) (q - 2), m % 2 == 0⟩

/-- How many digits a natural has. -/
def digitCount (n : Nat) : Nat :=
  (Nat.toDigits 10 n).length

/-- The `d` with `10 ^ d ≤ x < 10 ^ (d + 1)`, for a positive `x` not below `10 ^ (-400)`. -/
def magnitude (x : Ratio) : Int :=
  (digitCount (x.num * Nat.pow 10 400 / x.den) : Int) - 401

/-- A decimal: `digits · 10 ^ scale`. -/
structure Digits where
  digits : Nat
  scale : Int
deriving DecidableEq, Repr

/-- Of the two multiples of `10 ^ k` around `x`, the one in the interval; of two, the nearer. -/
def onGrid (x : Ratio) (r : Rounding) (k : Int) : Option Digits :=
  let below := if 0 ≤ k then x.num / (x.den * Nat.pow 10 k.toNat)
    else x.num * Nat.pow 10 (-k).toNat / x.den
  let lower := Ratio.ofDecimal below k
  let upper := Ratio.ofDecimal (below + 1) k
  match r.contains lower, r.contains upper with
  | false, false => none
  | true, false => some ⟨below, k⟩
  | false, true => some ⟨below + 1, k⟩
  | true, true =>
    let a := lower.dist x
    let b := upper.dist x
    if a.lt b || (a.le b && below % 2 == 0) then some ⟨below, k⟩ else some ⟨below + 1, k⟩

/-- A decimal without zeros at its end; `fuel` bounds how many are dropped. -/
def Digits.strip (d : Digits) : Nat → Digits
  | 0 => d
  | fuel + 1 =>
    if d.digits ≠ 0 && d.digits % 10 = 0 then strip ⟨d.digits / 10, d.scale + 1⟩ fuel else d

/-- The shortest decimal that rounds to the magnitude of a finite `bits`. -/
def shortest (bits : UInt64) : Digits :=
  if significand bits = 0 then ⟨0, 0⟩
  else
    let x := Ratio.ofBinary (significand bits) (exponent bits)
    let r := Rounding.of bits
    let d := magnitude x
    match (List.range 17).findSome? fun n : Nat => onGrid x r (d - (n : Int)) with
    | some found => found.strip 20
    | none => ⟨0, 0⟩

end CapabilityFlow.Decimal
