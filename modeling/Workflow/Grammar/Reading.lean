import Workflow.Tree.Basic

/-!
# Reading tokens

The grammar is read from the left, one token ahead. What is left to read is a list of tokens
without the end of input, whose position is carried along as `stop`. A result says what is left
and proves that it is shorter, which is why reading ends.
-/

namespace Workflow.Grammar

inductive Terminal where
  | symbol (sign : Symbol)
  | keyword (word : Keyword)
  | identifier
  | literal
  | objectKey
  | unaryOperator
  | binaryOperator
  deriving DecidableEq

def Terminal.accepts : Terminal → Lexeme → Bool
  | .symbol sign, l => l = .symbol sign
  | .keyword word, l => l = .keyword word
  | .identifier, l => l.isIdentifier
  | .literal, l => l.isLiteral
  | .objectKey, .string _ => true
  | .objectKey, l => l.isIdentifier
  | .unaryOperator, l => l.isUnaryOp
  | .binaryOperator, l => l.isBinaryOp

def Terminal.describe : Terminal → String
  | .symbol sign => "'" ++ sign.text ++ "'"
  | .keyword word => "'" ++ word.text ++ "'"
  | .identifier => "identifier"
  | .literal => "literal"
  | .objectKey => "object key"
  | .unaryOperator => "unary operator"
  | .binaryOperator => "binary operator"

inductive Expectation where
  | terminal (t : Terminal)
  | expression
  | statement
  | assignOrCall
  | branchOrFor
  | plainName
  | endOfStatement
  deriving DecidableEq

def Expectation.describe : Expectation → String
  | .terminal t => t.describe
  | .expression => "expression"
  | .statement => "statement"
  | .assignOrCall => "'=' or '('"
  | .branchOrFor => "'branch' or 'for'"
  | .plainName => "a function name without subscripts before '('"
  | .endOfStatement =>
    "end of statement (a call with named arguments cannot be part of an expression)"

inductive ParseError where
  | emptyStream
  /-- The last token is not the end of input. -/
  | unendedStream (position : Position)
  /-- A token, or the end of input, where something else is needed. -/
  | unexpected (expected : Expectation) (found : Option String) (position : Position)
  /-- A `try` with neither `retry` nor `catch`. -/
  | bareTry (position : Position)
  deriving DecidableEq

abbrev Shorter (r s : List Token) : Prop := r.length < s.length

abbrev NotLonger (r s : List Token) : Prop := r.length ≤ s.length

theorem shorter_cons (t : Token) (r : List Token) : Shorter r (t :: r) := Nat.lt_succ_self _

theorem notLonger_refl (s : List Token) : NotLonger s s := Nat.le_refl _

theorem Shorter.notLonger {r s : List Token} (h : Shorter r s) : NotLonger r s := Nat.le_of_lt h

theorem Shorter.trans {q r s : List Token} (h : Shorter q r) (h' : Shorter r s) : Shorter q s :=
  Nat.lt_trans h h'

theorem NotLonger.trans_shorter {q r s : List Token} (h : NotLonger q r) (h' : Shorter r s) :
    Shorter q s :=
  Nat.lt_of_le_of_lt h h'

/-- Something read from the start of `s`, with the tokens that are left. -/
structure Read (α : Type) (s : List Token) where
  value : α
  rest : List Token
  shorter : Shorter rest s

/-- Something read from the start of `s`, or nothing, with the tokens that are left. -/
structure ReadSome (α : Type) (s : List Token) where
  value : α
  rest : List Token
  notLonger : NotLonger rest s

/-- What is read behind some tokens of `s` is read from `s`. -/
def Read.after {α : Type} {r s : List Token} (h : Shorter r s) (x : Read α r) : Read α s :=
  ⟨x.value, x.rest, x.shorter.trans h⟩

def ReadSome.after {α : Type} {r s : List Token} (h : Shorter r s) (x : ReadSome α r) : Read α s :=
  ⟨x.value, x.rest, x.notLonger.trans_shorter h⟩

/-- Reads on behind some tokens of `s`. -/
def after {m : Type → Type} [Functor m] {α : Type} {r s : List Token} (h : Shorter r s)
    (x : m (Read α r)) : m (Read α s) :=
  Read.after h <$> x

def afterSome {m : Type → Type} [Functor m] {α : Type} {r s : List Token} (h : Shorter r s)
    (x : m (ReadSome α r)) : m (Read α s) :=
  ReadSome.after h <$> x

section

variable {α : Type} {r s : List Token} (h : Shorter r s)

@[simp] theorem after_none : after h (none : Option (Read α r)) = none := rfl

@[simp] theorem after_some (x : Read α r) : after h (some x) = some (x.after h) := rfl

@[simp] theorem after_error (e : ParseError) :
    after h (.error e : Except ParseError (Read α r)) = .error e := rfl

@[simp] theorem after_ok (x : Read α r) :
    after h (.ok x : Except ParseError (Read α r)) = .ok (x.after h) := rfl

@[simp] theorem afterSome_error (e : ParseError) :
    afterSome h (.error e : Except ParseError (ReadSome α r)) = .error e := rfl

@[simp] theorem afterSome_ok (x : ReadSome α r) :
    afterSome h (.ok x : Except ParseError (ReadSome α r)) = .ok (x.after h) := rfl

end

def here (stop : Position) : List Token → Position
  | [] => stop
  | t :: _ => t.position

def unexpected (stop : Position) (expected : Expectation) : List Token → ParseError
  | [] => .unexpected expected none stop
  | t :: _ => .unexpected expected (some t.image) t.position

def accept? (terminal : Terminal) : (s : List Token) → Option (Read Token s)
  | [] => none
  | t :: rest => if terminal.accepts t.lexeme then some ⟨t, rest, shorter_cons t rest⟩ else none

def expect (stop : Position) (terminal : Terminal) (s : List Token) :
    Except ParseError (Read Token s) :=
  match accept? terminal s with
  | some read => .ok read
  | none => .error (unexpected stop (.terminal terminal) s)

end Workflow.Grammar
