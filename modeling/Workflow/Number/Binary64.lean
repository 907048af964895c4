import Workflow.Number.Decimal

/-!
# Binary floating-point numbers

The 64-bit binary format: a sign bit, eleven exponent bits and fifty-two fraction bits. A finite
number is `± m · 2 ^ q` with a natural `m` and an integer `q`, and all arithmetic below is exact
arithmetic on these two. Rounding goes to the nearest number, a tie to the even one.
-/

namespace Workflow

/-- A floating-point number, given by its bits. Two numbers are equal when their bits are. -/
structure Binary64 where
  bits : UInt64
  deriving DecidableEq

/-- The integer nearest to `n / d`; of two equally near ones the even. -/
def roundDiv (n d : Nat) : Nat :=
  let q := n / d
  let r := n % d
  if 2 * r < d then q
  else if d < 2 * r then q + 1
  else if q % 2 = 0 then q
  else q + 1

namespace Binary64

/-- The value of the sign bit, `2 ^ 63`. -/
def signBit : Nat := 0x8000000000000000

/-- The value of the place above the fraction bits, `2 ^ 52`. -/
def hiddenBit : Nat := 0x10000000000000

/-- The magnitude of infinity. Smaller magnitudes are finite; larger ones are not numbers. -/
def infinite : Nat := 2047 * hiddenBit

def ofParts (negative : Bool) (magnitude : Nat) : Binary64 :=
  ⟨UInt64.ofNat (if negative then signBit + magnitude else magnitude)⟩

def isNegative (x : Binary64) : Bool := signBit ≤ x.bits.toNat

/-- The bits below the sign. -/
def magnitude (x : Binary64) : Nat := x.bits.toNat % signBit

def isFinite (x : Binary64) : Bool := x.magnitude < infinite

def isUndefined (x : Binary64) : Bool := infinite < x.magnitude

def neg (x : Binary64) : Binary64 := ofParts (!x.isNegative) x.magnitude

/-- The `m` of a finite number `± m · 2 ^ q`. -/
def significand (x : Binary64) : Nat :=
  if x.magnitude < hiddenBit then x.magnitude else hiddenBit + x.magnitude % hiddenBit

/-- The `q` of a finite number `± m · 2 ^ q`. -/
def exponent (x : Binary64) : Int :=
  if x.magnitude < hiddenBit then -1074 else (x.magnitude / hiddenBit : Nat) - 1075

/-- The largest `k` with `2 ^ k ≤ num / den`, for positive `num` and `den`. -/
def floorLog2 (num den : Nat) : Int :=
  let k : Int := num.log2 - den.log2
  if den * Nat.pow 2 k.toNat ≤ num * Nat.pow 2 (-k).toNat then k else k - 1

/-- The magnitude nearest to `num / den`. The bits of a magnitude are `(s + 1074) · 2 ^ 52 + m`
when it is `m · 2 ^ s`, also where rounding up to `m` made it a power of two. -/
def nearestRatio (num den : Nat) : Nat :=
  if num = 0 then 0
  else
    -- 53 bits are kept, or fewer where the exponent would be below the least one
    let s : Int := max (floorLog2 num den - 52) (-1074)
    let m := roundDiv (num * Nat.pow 2 (-s).toNat) (den * Nat.pow 2 s.toNat)
    min ((s + 1074).toNat * hiddenBit + m) infinite

/-- The magnitude nearest to a decimal. A decimal above `10 ^ 400` is infinite and one below
`2 ^ (-1080)` is zero; both are told from the exponents, before any power is computed. -/
def nearestMagnitude (d : Decimal) : Nat :=
  if d.digits = 0 then 0
  else if 400 < d.exponent then infinite
  else if d.digits.log2 + 1 + 3 * d.exponent < -1080 then 0
  else nearestRatio (d.digits * Nat.pow 10 d.exponent.toNat) (Nat.pow 10 (-d.exponent).toNat)

def nearest (negative : Bool) (d : Decimal) : Binary64 :=
  ofParts negative (nearestMagnitude d)

def ofNat (n : Nat) : Binary64 := ofParts false (nearestRatio n 1)

def toInt? (x : Binary64) : Option Int :=
  if !x.isFinite then none
  else
    let scaled := x.significand * Nat.pow 2 x.exponent.toNat
    let unit := Nat.pow 2 (-x.exponent).toNat
    if scaled % unit = 0 then
      some (if x.isNegative then -(scaled / unit : Nat) else (scaled / unit : Nat))
    else none

end Binary64

end Workflow
