/-!
# Rules and slots of the grammar

Every node of a syntax tree was made by a rule, and every child of a node stands in a slot of it.
-/

namespace Workflow

inductive Rule where
  | program
  | subworkflowDefinition
  | formalParameterList
  | formalParameter
  | statementBlock
  | callOrAssignment
  | namedCall
  | ifStatement
  | forStatement
  | parallelStatement
  | tryStatement
  | throwStatement
  | breakStatement
  | continueStatement
  | returnStatement
  | expression
  | term
  | literal
  | array
  | object
  | callExpression
  | qualifiedName
  | variableReference
  | subscriptReference
  | actualParameterList
  | actualNamedParameterList
  deriving DecidableEq, Repr

namespace Rule

def name : Rule → String
  | .program => "Program"
  | .subworkflowDefinition => "SubworkflowDefinition"
  | .formalParameterList => "FormalParameterList"
  | .formalParameter => "FormalParameter"
  | .statementBlock => "StatementBlock"
  | .callOrAssignment => "CallOrAssignmentStatement"
  | .namedCall => "NamedCall"
  | .ifStatement => "IfStatement"
  | .forStatement => "ForStatement"
  | .parallelStatement => "ParallelStatement"
  | .tryStatement => "TryStatement"
  | .throwStatement => "ThrowStatement"
  | .breakStatement => "BreakStatement"
  | .continueStatement => "ContinueStatement"
  | .returnStatement => "ReturnStatement"
  | .expression => "Expression"
  | .term => "Term"
  | .literal => "Literal"
  | .array => "Array"
  | .object => "Object"
  | .callExpression => "CallExpression"
  | .qualifiedName => "QualifiedName"
  | .variableReference => "VariableReference"
  | .subscriptReference => "SubscriptReference"
  | .actualParameterList => "ActualParameterList"
  | .actualNamedParameterList => "ActualNamedParameterList"

def all : List Rule :=
  [.program, .subworkflowDefinition, .formalParameterList, .formalParameter, .statementBlock,
   .callOrAssignment, .namedCall, .ifStatement, .forStatement, .parallelStatement, .tryStatement,
   .throwStatement, .breakStatement, .continueStatement, .returnStatement, .expression, .term,
   .literal, .array, .object, .callExpression, .qualifiedName, .variableReference,
   .subscriptReference, .actualParameterList, .actualNamedParameterList]

def ofName? (name : String) : Option Rule :=
  all.find? (·.name == name)

end Rule

/-- The slots of nodes. A tree that no rule made may use slots of other names. -/
inductive Slot where
  | subworkflowDefinition
  | workflow
  | identifier
  | formalParameterList
  | formalParameter
  | statementBlock
  | statement
  | variableReference
  | assign
  | namedCall
  | expression
  | qualifiedName
  | actualParameterList
  | actualNamedParameterList
  | if
  | else
  | for
  | forStatement
  | parallel
  | branch
  | try
  | tryBlock
  | retry
  | catch
  | catchBlock
  | throw
  | break
  | continue
  | return
  | term
  | binaryOperator
  | unaryOperator
  | literal
  | value
  | array
  | object
  | key
  | lparen
  | expressionLiteral
  | callExpression
  | subscriptReference
  | subscript
  | other (name : String)
  deriving DecidableEq, Repr

namespace Slot

def name : Slot → String
  | .subworkflowDefinition => "subworkflowDefinition"
  | .workflow => "Workflow"
  | .identifier => "Identifier"
  | .formalParameterList => "formalParameterList"
  | .formalParameter => "formalParameter"
  | .statementBlock => "statementBlock"
  | .statement => "statement"
  | .variableReference => "variableReference"
  | .assign => "Assign"
  | .namedCall => "namedCall"
  | .expression => "expression"
  | .qualifiedName => "qualifiedName"
  | .actualParameterList => "actualParameterList"
  | .actualNamedParameterList => "actualNamedParameterList"
  | .if => "If"
  | .else => "Else"
  | .for => "For"
  | .forStatement => "forStatement"
  | .parallel => "Parallel"
  | .branch => "Branch"
  | .try => "Try"
  | .tryBlock => "tryBlock"
  | .retry => "Retry"
  | .catch => "Catch"
  | .catchBlock => "catchBlock"
  | .throw => "Throw"
  | .break => "Break"
  | .continue => "Continue"
  | .return => "Return"
  | .term => "term"
  | .binaryOperator => "binaryOperator"
  | .unaryOperator => "unaryOperator"
  | .literal => "literal"
  | .value => "value"
  | .array => "array"
  | .object => "object"
  | .key => "key"
  | .lparen => "LParen"
  | .expressionLiteral => "ExpressionLiteral"
  | .callExpression => "callExpression"
  | .subscriptReference => "subscriptReference"
  | .subscript => "subscript"
  | .other name => name

def all : List Slot :=
  [.subworkflowDefinition, .workflow, .identifier, .formalParameterList, .formalParameter,
   .statementBlock, .statement, .variableReference, .assign, .namedCall, .expression,
   .qualifiedName, .actualParameterList, .actualNamedParameterList, .if, .else, .for,
   .forStatement, .parallel, .branch, .try, .tryBlock, .retry, .catch, .catchBlock, .throw, .break,
   .continue, .return, .term, .binaryOperator, .unaryOperator, .literal, .value, .array, .object,
   .key, .lparen, .expressionLiteral, .callExpression, .subscriptReference, .subscript]

def ofName (name : String) : Slot :=
  (all.find? (·.name == name)).getD (.other name)

end Slot

end Workflow
