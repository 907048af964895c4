import Workflow.Program.Basic
import Workflow.Step.Merge
import Workflow.Step.Options

/-!
# Programs of syntax trees

Statements become steps. A call whose result goes into a subscripted or dotted place becomes two
steps: the call, with a temporary variable for its result, and an assignment from it. Temporaries
are numbered through the whole program.
-/

namespace Workflow

/-- Building counts the temporaries it has used. -/
abbrev Build := StateT Nat (Except BuildError)

def freshTemporary : Build String := do
  let n ← get
  set (n + 1)
  return "__temp" ++ Decimal.natText n

def argumentsOf : Option Node → Except BuildError (List (String × Expr))
  | none => return []
  | some n => do NamedArgument.callArguments (← NamedArgument.listOfNode n)

/-- The steps of a call statement. Positional arguments make it an assignment to nothing. -/
def Step.ofBareCall (n : Node) : Except BuildError RawStep := do
  let name ← dottedName (← n.requireNode .qualifiedName)
  match n.child? .actualParameterList with
  | some list =>
    let args ← Expr.listOfNode list
    return (Action.assign [("", Expr.ofOperand (.call name args))]).raw
  | none =>
    let args ← argumentsOf (n.child? .actualNamedParameterList)
    return (Action.call name args none).raw

def Step.ofCallOrAssignment (n : Node) : Build (List RawStep) := do
  n.expectRule .callOrAssignment
  match n.child? .variableReference with
  | none => return [← Step.ofBareCall n]
  | some reference =>
    let target ← referenceText reference
    match n.child? .namedCall with
    | some call =>
      call.expectRule .namedCall
      let name ← dottedName (← call.requireNode .qualifiedName)
      let args ← argumentsOf (call.child? .actualNamedParameterList)
      -- only a bare name takes a result, any other place takes it in a second step
      if Text.isSimpleName target then return [(Action.call name args (some target)).raw]
      let temporary ← freshTemporary
      return [(Action.call name args (some temporary)).raw,
        (Action.assign [(target, Expr.reference temporary)]).raw]
    | none =>
      let value ← Expr.ofNode (← n.requireNode .expression)
      return [(Action.assign [(target, value)]).raw]

/-- The head of a loop. A literal has to be a list. -/
def LoopHead.ofNode (n : Node) : Except BuildError LoopHead := do
  n.expectRule .forStatement
  let name ← n.requireToken .identifier
  let items ← n.requireNode .expression
  let e ← Expr.ofNode items
  if e.literal?.any fun d => !d.isArray then throw (.defect .notIterable items.val.position)
  return ⟨name.image, none, .items e⟩

def ParallelOptions.ofNode (n : Node) : Except BuildError ParallelOptions := do
  match n.child? .actualNamedParameterList with
  | some list => ParallelOptions.ofArguments (← NamedArgument.listOfNode list)
  | none => return .empty

def RetryPolicy.ofNode (n : Node) : Except BuildError (Option RetryPolicy) := do
  match n.token? .retry with
  | none => return none
  | some retry =>
    let args ← NamedArgument.listOfNode (← n.requireNode .actualNamedParameterList)
    return some (← RetryPolicy.ofArguments args retry.position)

mutual

def Step.ofNode (n : Node) : Build (List RawStep) := do
  match n.rule with
  | .callOrAssignment => Step.ofCallOrAssignment n
  | .ifStatement =>
    let conditions := n.nodes .expression
    let blocks := n.nodes .statementBlock
    if blocks.length ≠ conditions.length ∧ blocks.length ≠ conditions.length + 1 then
      throw (.malformed (.branchCount conditions.length blocks.length))
    have := n.sizeOf_nodes_lt .statementBlock
    let cases ← Case.ofNodes conditions (n.nodes .statementBlock)
    return [(Action.switch cases none).raw]
  | .forStatement =>
    let head ← LoopHead.ofNode n
    let ⟨block, _⟩ ← n.requireNode .statementBlock
    let body ← Step.ofBlock block
    return [(Action.loop head body).raw]
  | .parallelStatement =>
    let options ← ParallelOptions.ofNode n
    match n.node? .forStatement with
    | some ⟨loop, _⟩ =>
      let head ← LoopHead.ofNode loop
      let ⟨block, _⟩ ← loop.requireNode .statementBlock
      let body ← Step.ofBlock block
      return [(Action.parallelLoop options head body).raw]
    | none =>
      have := n.sizeOf_nodes_lt .statementBlock
      let branches ← Step.ofBranches (n.nodes .statementBlock)
      if branches.isEmpty then throw (.malformed .noBranches)
      return [(Action.branches options branches).raw]
  | .tryStatement =>
    let ⟨block, _⟩ ← n.requireNode .tryBlock
    let body ← Step.ofBlock block
    let retry ← RetryPolicy.ofNode n
    match n.node? .catchBlock with
    | some ⟨block, _⟩ =>
      let name ← n.requireToken .identifier
      let handler ← Step.ofBlock block
      return [(Action.attempt body retry (some name.image) handler).raw]
    | none => return [(Action.attempt body retry none []).raw]
  | .throwStatement =>
    let value ← Expr.ofNode (← n.requireNode .expression)
    return [(Action.raise value).raw]
  | .breakStatement => return [(Action.next "break").raw]
  | .continueStatement => return [(Action.next "continue").raw]
  | .returnStatement =>
    match n.child? .expression with
    | some e => return [(Action.return (some (← Expr.ofNode e))).raw]
    | none => return [(Action.return none).raw]
  | other => throw (.malformed (.notStatement other))
termination_by 2 * sizeOf n

/-- The steps of a block, with neighbouring assignments merged. -/
def Step.ofBlock (n : Node) : Build (List RawStep) := do
  n.expectRule .statementBlock
  have := n.sizeOf_nodes_lt .statement
  return Step.merge (← Step.ofNodes (n.nodes .statement))
termination_by 2 * sizeOf n + 1

def Step.ofNodes : List Node → Build (List RawStep)
  | [] => return []
  | n :: rest => do
    let steps ← Step.ofNode n
    let others ← Step.ofNodes rest
    return steps ++ others
termination_by ns => 2 * sizeOf ns

/-- The branches of a parallel statement: each block as one step. -/
def Step.ofBranches : List Node → Build (List RawStep)
  | [] => return []
  | n :: rest => do
    let body ← Step.ofBlock n
    let others ← Step.ofBranches rest
    return (Action.steps body).raw :: others
termination_by ns => 2 * sizeOf ns

/-- The cases of an `if`. A block without a condition is the case that always holds. -/
def Case.ofNodes : List Node → List Node → Build (List (Case Unit))
  | conditions, n :: rest => do
    let condition ← (match conditions with
      | condition :: _ => liftM (Expr.ofNode condition)
      | [] => return Expr.ofOperand (.primitive (.bool true)) : Build Expr)
    let body ← Step.ofBlock n
    let others ← Case.ofNodes conditions.tail rest
    return .mk condition body none :: others
  | _, [] => return []
termination_by _ ns => 2 * sizeOf ns

end

def Parameter.ofNodes : List Node → Except BuildError (List Parameter)
  | [] => return []
  | n :: rest => do
    let name ← n.requireToken .identifier
    let default ← (match n.child? .literal with
      | some literal => return some (← Primitive.ofNode literal)
      | none => return none : Except BuildError (Option Primitive))
    let others ← Parameter.ofNodes rest
    return ⟨name.image, default⟩ :: others

def Subworkflow.ofNode (n : Node) : Build (Subworkflow Unit) := do
  n.expectRule .subworkflowDefinition
  let name ← n.requireToken .identifier
  let ⟨list, _⟩ ← n.requireNode .formalParameterList
  list.expectRule .formalParameterList
  let params ← Parameter.ofNodes (list.nodes .formalParameter)
  let ⟨block, _⟩ ← n.requireNode .statementBlock
  let steps ← Step.ofBlock block
  return ⟨name.image, params, steps⟩

def Subworkflow.ofNodes : List Node → Build (Program Unit)
  | [] => return []
  | n :: rest => do
    let w ← Subworkflow.ofNode n
    let others ← Subworkflow.ofNodes rest
    return w :: others

def Program.ofTree (n : Node) : Except BuildError (Program Unit) := do
  n.expectRule .program
  let (program, _) ← (Subworkflow.ofNodes (n.nodes .subworkflowDefinition)).run 0
  return program

end Workflow
