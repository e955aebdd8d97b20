import CapabilityFlow.Decimal.Shortest

/-!
# The floating-point number nearest to a decimal

`nearest` rounds `digits · 10 ^ scale` to a binary floating-point number of 64 bits, a tie going
to the even significand; a magnitude beyond the largest finite number becomes infinite.
-/

namespace CapabilityFlow.Decimal

/-- The quotient of two naturals rounded to the nearest, a tie to the even one. -/
def roundDiv (num den : Nat) : Nat :=
  let quot := num / den
  let rest := num % den
  if 2 * rest < den || (2 * rest == den && quot % 2 == 0) then quot else quot + 1

/-- The bits of infinity. -/
def infinityBits : Nat := 2047 * Nat.pow 2 52

/-- The bits of the magnitude `m · 2 ^ q`, for `m` at most `2 ^ 53` and at least `2 ^ 52` unless
`q` is the least exponent. Carrying into `2 ^ 53` moves on to the next exponent by itself. -/
def encode (m : Nat) (q : Int) : Nat :=
  min infinityBits (m + (q + 1074).toNat * Nat.pow 2 52)

/-- The bits of the number nearest to a positive fraction. -/
def nearestRatio (x : Ratio) : Nat :=
  let lead : Int := (x.num.log2 : Int) - (x.den.log2 : Int)
  let at? (q : Int) : Nat :=
    if 0 ≤ q then roundDiv x.num (x.den * Nat.pow 2 q.toNat)
    else roundDiv (x.num * Nat.pow 2 (-q).toNat) x.den
  let wide := max (lead - 53) (-1074)
  let m := at? wide
  if m < Nat.pow 2 53 then encode m wide
  else
    let q := wide + 1
    encode (at? q) q

/-- The number nearest to `digits · 10 ^ scale`, with the given sign. -/
def nearest (negative : Bool) (digits : Nat) (scale : Int) : UInt64 :=
  let size : Int := digitCount digits + scale
  let magnitudeBits :=
    if digits = 0 || size < -330 then 0
    else if size > 310 then infinityBits
    else nearestRatio (Ratio.ofDecimal digits scale)
  UInt64.ofNat (if negative then magnitudeBits + Nat.pow 2 63 else magnitudeBits)

end CapabilityFlow.Decimal
