/-!
# Decimal numbers

An unsigned decimal is `digits · 10 ^ exponent`. Reading takes digits with an optional point and
an optional power of ten; nothing is rounded here.
-/

namespace Workflow

/-- The unsigned number `digits · 10 ^ exponent`. -/
structure Decimal where
  digits : Nat
  exponent : Int
  deriving DecidableEq, Repr

namespace Decimal

def isDigit (c : Char) : Bool := '0' ≤ c && c ≤ '9'

def digitValue (c : Char) : Nat := c.toNat - 48

def ofDigits (cs : List Char) : Nat :=
  cs.foldl (fun n c => 10 * n + digitValue c) 0

/-- The digits of a number, most significant first. -/
def toDigits (n : Nat) : List Char := Nat.toDigits 10 n

def natText (n : Nat) : String := String.ofList (toDigits n)

def intText (n : Int) : String :=
  if n < 0 then String.ofList ('-' :: toDigits n.natAbs) else String.ofList (toDigits n.natAbs)

/-- Reads an optional sign and at least one digit, up to the end of the text. -/
def exponent? (cs : List Char) : Option Int :=
  let (negative, ds) := match cs with
    | '-' :: ds => (true, ds)
    | '+' :: ds => (false, ds)
    | ds => (false, ds)
  if ds.isEmpty || !ds.all isDigit then none
  else some (if negative then -(ofDigits ds : Int) else ofDigits ds)

/-- Reads an unsigned decimal: digits around an optional point, at least one of them, and an
optional power of ten after `e` or `E`. -/
def ofChars? (cs : List Char) : Option Decimal :=
  let whole := cs.takeWhile isDigit
  let rest := cs.dropWhile isDigit
  let (fraction, rest) := match rest with
    | '.' :: r => (r.takeWhile isDigit, r.dropWhile isDigit)
    | r => ([], r)
  if whole.isEmpty && fraction.isEmpty then none
  else
    let value := ofDigits (whole ++ fraction)
    let places : Int := fraction.length
    match rest with
    | [] => some ⟨value, -places⟩
    | mark :: power =>
      if mark = 'e' ∨ mark = 'E' then (exponent? power).map fun e => ⟨value, e - places⟩
      else none

end Decimal

end Workflow
