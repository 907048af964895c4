import Workflow.Number.Shortest

/-!
# Layouts of floating-point numbers

The digits of a number are chosen by `Binary64.shortest`; a layout says how they are written.
-/

namespace Workflow

structure FloatLayout where
  /-- Which of two equally near decimals is taken. -/
  tie : Binary64.Tie
  /-- The powers of ten of the first digit for which no exponent is written. -/
  isPositional : Int → Bool
  /-- Whether a whole number without exponent ends in `.0`. -/
  wholePoint : Bool
  /-- Whether a positive exponent has a sign. -/
  plusSign : Bool

namespace FloatLayout

def positional (wholePoint : Bool) (digits : List Char) (exponent : Int) : List Char :=
  if 0 ≤ exponent then
    digits ++ List.replicate exponent.toNat '0' ++ (if wholePoint then ['.', '0'] else [])
  else
    let places := (-exponent).toNat
    if places < digits.length then
      digits.take (digits.length - places) ++ '.' :: digits.drop (digits.length - places)
    else
      '0' :: '.' :: (List.replicate (places - digits.length) '0' ++ digits)

/-- Digits with an exponent: a point after the first digit if there are more. -/
def scientific (plusSign : Bool) (digits : List Char) (power : Int) : List Char :=
  let sign := if power < 0 then ['-'] else if plusSign then ['+'] else []
  let lead := match digits with
    | d :: e :: ds => d :: '.' :: e :: ds
    | ds => ds
  lead ++ 'e' :: (sign ++ Decimal.toDigits power.natAbs)

def chars (layout : FloatLayout) (x : Binary64) : List Char :=
  let d := x.shortest layout.tie
  let digits := Decimal.toDigits d.digits
  let power : Int := d.exponent + digits.length - 1
  let body := if layout.isPositional power then positional layout.wholePoint digits d.exponent
    else scientific layout.plusSign digits power
  if x.isNegative then '-' :: body else body

end FloatLayout

end Workflow
