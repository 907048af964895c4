import Workflow.Number.Binary64

/-!
# Numbers

A number of a program is a 64-bit integer or a floating-point number. The two kinds are kept
apart: an integer never becomes a floating-point number unless it leaves its range.
-/

namespace Workflow

inductive Number where
  | int (n : Int64)
  | float (x : Binary64)
  deriving DecidableEq

namespace Number

def ofInt? (n : Int) : Option Number :=
  if Int64.minValue.toInt ≤ n ∧ n ≤ Int64.maxValue.toInt then some (.int (Int64.ofInt n)) else none

theorem ofInt?_toInt (n : Int64) : ofInt? n.toInt = some (.int n) := by
  rw [ofInt?, if_pos ⟨n.minValue_le_toInt, n.toInt_le⟩, Int64.ofInt_toInt]

/-- The number with the other sign. The least integer has no integer opposite: its opposite is the
floating-point number `2 ^ 63`. -/
def neg : Number → Number
  | .int n =>
    if n = Int64.minValue then .float (Binary64.ofNat n.toInt.natAbs) else .int (-n)
  | .float x => .float x.neg

end Number

end Workflow
