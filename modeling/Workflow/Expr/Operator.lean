/-!
# Operators
-/

namespace Workflow

/-- An operator in front of a term. -/
inductive UnaryOp where
  | minus
  | plus
  | not
  deriving DecidableEq, Repr

/-- An operator between two terms. -/
inductive BinaryOp where
  | add
  | sub
  | mul
  | div
  | rem
  | lt
  | lte
  | gt
  | gte
  | eq
  | neq
  | and
  | or
  | in
  deriving DecidableEq, Repr

def UnaryOp.text : UnaryOp → String
  | .minus => "-"
  | .plus => "+"
  | .not => "not"

def BinaryOp.text : BinaryOp → String
  | .add => "+"
  | .sub => "-"
  | .mul => "*"
  | .div => "/"
  | .rem => "%"
  | .lt => "<"
  | .lte => "<="
  | .gt => ">"
  | .gte => ">="
  | .eq => "=="
  | .neq => "!="
  | .and => "and"
  | .or => "or"
  | .in => "in"

def UnaryOp.all : List UnaryOp := [.minus, .plus, .not]

def BinaryOp.all : List BinaryOp :=
  [.add, .sub, .mul, .div, .rem, .lt, .lte, .gt, .gte, .eq, .neq, .and, .or, .in]

def UnaryOp.ofText? (text : String) : Option UnaryOp :=
  UnaryOp.all.find? (·.text == text)

def BinaryOp.ofText? (text : String) : Option BinaryOp :=
  BinaryOp.all.find? (·.text == text)

end Workflow
