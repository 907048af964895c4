import Workflow.Number.Binary64

/-!
# Shortest decimals

The decimal of a finite number other than zero is the shortest that reads back: of the grids of
multiples of `10 ^ p` the coarsest one that has a point in the interval of reals that round to the
number, and on it the point nearest to the number.
-/

namespace Workflow.Binary64

/-- Which of two equally near decimals is taken. -/
inductive Tie where
  | toEven
  | up
  deriving DecidableEq

/-- The reals that round to a number, in units of `2 ^ (exponent - 2)`: both ends, and whether they
belong to the interval. The gap below a power of two is half of the gap above it. -/
def interval (x : Binary64) : Nat × Nat × Bool :=
  let m := x.significand
  let below := if m = hiddenBit ∧ x.exponent ≠ -1074 then 1 else 2
  (4 * m - below, 4 * m + 2, m % 2 = 0)

/-- The point of the grid `10 ^ p` that stands for a number: its multiple of `10 ^ p`, or nothing
where the grid has no point in the interval. -/
def gridPoint? (tie : Tie) (x : Binary64) (p : Int) : Option Nat :=
  -- the units of the interval and the steps of the grid, without fractions
  let u := x.exponent - 2
  let unit := Nat.pow 2 u.toNat * Nat.pow 10 (-p).toNat
  let step := Nat.pow 10 p.toNat * Nat.pow 2 (-u).toNat
  let (low, high, closed) := x.interval
  let inside (c : Nat) : Bool :=
    (low * unit < c * step || closed && low * unit = c * step) &&
      (c * step < high * unit || closed && c * step = high * unit)
  let value := 4 * x.significand * unit
  let c := value / step
  match inside c, inside (c + 1) with
  | true, false => some c
  | false, true => some (c + 1)
  | false, false => none
  | true, true =>
    if 2 * value < (2 * c + 1) * step then some c
    else if (2 * c + 1) * step < 2 * value then some (c + 1)
    else match tie with
      | .toEven => some (if c % 2 = 0 then c else c + 1)
      | .up => some (c + 1)

/-- An exponent `p` with the number below `10 ^ p`. -/
def decimalCeiling (x : Binary64) : Int :=
  -- 0.30103 is the decimal logarithm of two, a little rounded up
  (x.significand.log2 + x.exponent + 1) * 30103 / 100000 + 2

/-- Tries grids from the coarse to the fine. -/
def searchGrid (tie : Tie) (x : Binary64) : Nat → Int → Decimal
  | 0, p => ⟨4 * x.significand, p⟩
  | tries + 1, p =>
    match gridPoint? tie x p with
    | some c => ⟨c, p⟩
    | none => searchGrid tie x tries (p - 1)

/-- The shortest decimal that reads back as a finite number. Seventeen digits are always enough, so
that twenty-one grids below the ceiling are. -/
def shortest (tie : Tie) (x : Binary64) : Decimal :=
  if x.magnitude = 0 then ⟨0, 0⟩ else searchGrid tie x 21 x.decimalCeiling

end Workflow.Binary64
