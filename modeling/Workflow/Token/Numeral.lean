import Workflow.Number.Basic

/-!
# Numerals

A numeral is a number as it is written: a sign, whole digits, and perhaps a fraction and a power
of ten. It keeps its characters, so that its text can be given back, and its value is exact until
`Numeral.number?` rounds it.
-/

namespace Workflow

structure Numeral.Power where
  /-- `e` or `E`. -/
  mark : Char
  sign : Option Char
  digits : List Char
  deriving DecidableEq

/-- A number as it is written. A fraction without digits is no fraction. -/
structure Numeral where
  isNegative : Bool
  whole : List Char
  fraction : List Char
  power : Option Numeral.Power
  deriving DecidableEq

namespace Numeral

def Power.chars (p : Power) : List Char :=
  p.mark :: (p.sign.toList ++ p.digits)

def Power.value (p : Power) : Int :=
  if p.sign = some '-' then -(Decimal.ofDigits p.digits : Int) else Decimal.ofDigits p.digits

def chars (n : Numeral) : List Char :=
  (if n.isNegative then ['-'] else []) ++ n.whole ++
    (if n.fraction.isEmpty then [] else '.' :: n.fraction) ++
    (n.power.map Power.chars).getD []

/-- The power of ten at the start of a text: a mark, perhaps a sign, and at least one digit. -/
def Power.scan? (cs : List Char) : Option Power :=
  match cs with
  | mark :: rest =>
    if mark = 'e' ∨ mark = 'E' then
      let (sign, rest) := match rest with
        | s :: r => if s = '+' ∨ s = '-' then (some s, r) else (none, rest)
        | [] => (none, [])
      let digits := rest.takeWhile Decimal.isDigit
      if digits.isEmpty then none else some ⟨mark, sign, digits⟩
    else none
  | [] => none

/-- The longest numeral at the start of a text that starts with one. A leading zero stands alone. -/
def scan (cs : List Char) : Numeral :=
  let (isNegative, cs) := match cs with
    | '-' :: rest => (true, rest)
    | cs => (false, cs)
  let whole := match cs with
    | '0' :: _ => ['0']
    | cs => cs.takeWhile Decimal.isDigit
  let cs := cs.drop whole.length
  let fraction := match cs with
    | '.' :: rest => rest.takeWhile Decimal.isDigit
    | _ => []
  let cs := if fraction.isEmpty then cs else cs.drop (fraction.length + 1)
  ⟨isNegative, whole, fraction, Power.scan? cs⟩

def decimal (n : Numeral) : Decimal :=
  ⟨Decimal.ofDigits (n.whole ++ n.fraction),
    ((n.power.map Power.value).getD 0) - (n.fraction.length : Int)⟩

def wholeValue (n : Numeral) : Int :=
  if n.isNegative then -(Decimal.ofDigits n.whole : Int) else Decimal.ofDigits n.whole

/-- The largest magnitude up to which every integer is a floating-point number, `2 ^ 53`. -/
def exactLimit : Nat := 0x20000000000000

/-- The number that a numeral stands for. Whole digits alone are an integer where they fit. A power
of ten without a fraction is an integer where its rounded value is whole and within `exactLimit`.
Everything else is a floating-point number, or nothing where that would be infinite. -/
def number? (n : Numeral) : Option Number :=
  let rounded := Binary64.nearest n.isNegative n.decimal
  let float := if rounded.isFinite then some (Number.float rounded) else none
  if n.fraction.isEmpty then
    match n.power with
    | none => (Number.ofInt? n.wholeValue).or float
    | some _ =>
      match rounded.toInt? with
      | some i => if i.natAbs ≤ exactLimit then some (.int (Int64.ofInt i)) else float
      | none => float
  else float

end Numeral

end Workflow
