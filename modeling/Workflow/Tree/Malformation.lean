import Workflow.Token.Basic
import Workflow.Tree.Rule

/-!
# Malformed syntax trees

The ways in which a tree can fail to have the shape that the grammar gives it. Trees that come
from tokens never do; trees made by hand may.
-/

namespace Workflow

inductive Malformation where
  | missingNode (rule : Rule) (slot : Slot)
  | missingToken (rule : Rule) (slot : Slot)
  | wrongRule (expected found : Rule)
  | notStatement (rule : Rule)
  | noTerms
  | operatorCount (operators terms : Nat)
  | noValue
  | notLiteral (found : Lexeme)
  | notExpressionLiteral (found : Lexeme)
  | notBinaryOperator (found : Lexeme)
  | notUnaryOperator (found : Lexeme)
  | objectCount
  | argumentCount
  | emptyName
  | emptyReference
  | branchCount (conditions blocks : Nat)
  | noBranches
  deriving DecidableEq

def Malformation.message : Malformation → String
  | .missingNode rule slot => rule.name ++ " node has no '" ++ slot.name ++ "' child"
  | .missingToken rule slot => rule.name ++ " node has no '" ++ slot.name ++ "' token"
  | .wrongRule expected found => "expected a " ++ expected.name ++ " node, found " ++ found.name
  | .notStatement rule => rule.name ++ " is not a statement"
  | .noTerms => "expression without terms"
  | .operatorCount operators terms =>
    "expression has " ++ Decimal.natText operators ++ " operators for " ++ Decimal.natText terms ++
      " trailing terms"
  | .noValue => "term has no value"
  | .notLiteral found => "'" ++ found.describe ++ "' is not a literal"
  | .notExpressionLiteral found => "'" ++ found.describe ++ "' is not an expression literal"
  | .notBinaryOperator found => "'" ++ found.describe ++ "' is not a binary operator"
  | .notUnaryOperator found => "'" ++ found.describe ++ "' is not a unary operator"
  | .objectCount => "object keys and values differ in count"
  | .argumentCount => "named parameters and values differ in count"
  | .emptyName => "empty qualified name"
  | .emptyReference => "empty variable reference"
  | .branchCount conditions blocks =>
    "if statement has " ++ Decimal.natText conditions ++ " conditions and " ++
      Decimal.natText blocks ++ " blocks"
  | .noBranches => "parallel statement without branches"

end Workflow
