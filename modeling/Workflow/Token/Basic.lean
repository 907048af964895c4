import Workflow.Expr.Operator
import Workflow.Number.Basic
import Workflow.Text.Position

/-!
# Tokens

A lexeme is what a piece of source text means on its own; a token is a lexeme with the text it was
written as and the place where it starts.
-/

namespace Workflow

inductive Keyword where
  | true
  | false
  | null
  | if
  | else
  | try
  | retry
  | catch
  | throw
  | for
  | in
  | break
  | continue
  | return
  | workflow
  | parallel
  | branch
  | and
  | or
  | not
  deriving DecidableEq, Repr

namespace Keyword

def text : Keyword → String
  | .true => "true"
  | .false => "false"
  | .null => "null"
  | .if => "if"
  | .else => "else"
  | .try => "try"
  | .retry => "retry"
  | .catch => "catch"
  | .throw => "throw"
  | .for => "for"
  | .in => "in"
  | .break => "break"
  | .continue => "continue"
  | .return => "return"
  | .workflow => "workflow"
  | .parallel => "parallel"
  | .branch => "branch"
  | .and => "and"
  | .or => "or"
  | .not => "not"

def all : List Keyword :=
  [.true, .false, .null, .if, .else, .try, .retry, .catch, .throw, .for, .in, .break, .continue,
   .return, .workflow, .parallel, .branch, .and, .or, .not]

def ofText? (text : String) : Option Keyword :=
  all.find? (·.text == text)

end Keyword

inductive Symbol where
  | lparen
  | rparen
  | lbracket
  | rbracket
  | lbrace
  | rbrace
  | comma
  | dot
  | colon
  | assign
  | plus
  | minus
  | star
  | slash
  | percent
  | eq
  | neq
  | lt
  | lte
  | gt
  | gte
  deriving DecidableEq, Repr

def Symbol.text : Symbol → String
  | .lparen => "("
  | .rparen => ")"
  | .lbracket => "["
  | .rbracket => "]"
  | .lbrace => "\x7b"
  | .rbrace => "\x7d"
  | .comma => ","
  | .dot => "."
  | .colon => ":"
  | .assign => "="
  | .plus => "+"
  | .minus => "-"
  | .star => "*"
  | .slash => "/"
  | .percent => "%"
  | .eq => "=="
  | .neq => "!="
  | .lt => "<"
  | .lte => "<="
  | .gt => ">"
  | .gte => ">="

/-- What a piece of source text means on its own. -/
inductive Lexeme where
  | identifier (name : String)
  | keyword (word : Keyword)
  /-- A string literal, with its escapes resolved. -/
  | string (value : String)
  | number (value : Number)
  /-- An expression literal, with the text between its braces. -/
  | expression (text : String)
  | symbol (sign : Symbol)
  | endOfInput
  deriving DecidableEq

namespace Lexeme

/-- The operator that a lexeme is between two terms. -/
def binaryOp? : Lexeme → Option BinaryOp
  | .symbol .plus => some .add
  | .symbol .minus => some .sub
  | .symbol .star => some .mul
  | .symbol .slash => some .div
  | .symbol .percent => some .rem
  | .symbol .lt => some .lt
  | .symbol .lte => some .lte
  | .symbol .gt => some .gt
  | .symbol .gte => some .gte
  | .symbol .eq => some .eq
  | .symbol .neq => some .neq
  | .keyword .and => some .and
  | .keyword .or => some .or
  | .keyword .in => some .in
  | _ => none

/-- The operator that a lexeme is in front of a term. -/
def unaryOp? : Lexeme → Option UnaryOp
  | .symbol .minus => some .minus
  | .symbol .plus => some .plus
  | .keyword .not => some .not
  | _ => none

def isBinaryOp (l : Lexeme) : Bool := l.binaryOp?.isSome

def isUnaryOp (l : Lexeme) : Bool := l.unaryOp?.isSome

def isIdentifier : Lexeme → Bool
  | .identifier _ => true
  | _ => false

/-- Whether a lexeme is a literal: a string, a number, `true`, `false` or `null`. -/
def isLiteral : Lexeme → Bool
  | .string _ | .number _ | .keyword .true | .keyword .false | .keyword .null => true
  | _ => false

/-- Whether a value ends with this lexeme, so that a `-` after it is an operator and not the sign
of a number. -/
def endsValue : Lexeme → Bool
  | .identifier _ | .string _ | .number _ | .expression _ => true
  | .symbol .rparen | .symbol .rbracket | .symbol .rbrace => true
  | .keyword .true | .keyword .false | .keyword .null => true
  | _ => false

def startsExpression (l : Lexeme) : Bool :=
  l.isLiteral || l.isUnaryOp || l.isIdentifier ||
    match l with
    | .expression _ | .symbol .lparen | .symbol .lbracket | .symbol .lbrace => true
    | _ => false

def describe : Lexeme → String
  | .identifier name => "identifier '" ++ name ++ "'"
  | .keyword word => "'" ++ word.text ++ "'"
  | .string _ => "string literal"
  | .number _ => "number literal"
  | .expression _ => "expression literal"
  | .symbol sign => "'" ++ sign.text ++ "'"
  | .endOfInput => "end of input"

end Lexeme

structure Token where
  lexeme : Lexeme
  /-- The source text of the token; empty at the end of input. -/
  image : String
  position : Position
  deriving DecidableEq

end Workflow
