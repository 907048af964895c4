import Workflow.Number.Decimal

/-!
# Positions in a source text

A position counts the bytes of UTF-8 before it, and names its line and its column. Lines and
columns count from one, columns count characters, and only a line feed ends a line.
-/

namespace Workflow

structure Position where
  offset : Nat
  line : Nat
  column : Nat
  deriving DecidableEq, Repr

namespace Position

def start : Position := ⟨0, 1, 1⟩

/-- The position given to a fault that stands nowhere in a text. -/
def nowhere : Position := ⟨0, 0, 0⟩

def next (p : Position) (c : Char) : Position :=
  if c = '\n' then ⟨p.offset + c.utf8Size, p.line + 1, 1⟩
  else ⟨p.offset + c.utf8Size, p.line, p.column + 1⟩

def advance (p : Position) (cs : List Char) : Position :=
  cs.foldl next p

@[simp] theorem advance_nil (p : Position) : p.advance [] = p := rfl

@[simp] theorem advance_cons (p : Position) (c : Char) (cs : List Char) :
    p.advance (c :: cs) = (p.next c).advance cs := rfl

theorem advance_append (p : Position) (cs ds : List Char) :
    p.advance (cs ++ ds) = (p.advance cs).advance ds := by
  simp [advance, List.foldl_append]

def describe (p : Position) : String :=
  "line " ++ Decimal.natText p.line ++ ", column " ++ Decimal.natText p.column

end Position

end Workflow
