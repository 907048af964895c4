import Workflow.Proofs.Grammar.Phrase

/-!
# Phrases and the end of input

No phrase holds the end of input, so that what reads a program stops only behind all its tokens.
-/

namespace Workflow.Phrase

open Grammar

/-- Tokens before the end of input. -/
def NoEnd (tokens : List Token) : Prop := ∀ t ∈ tokens, t.lexeme ≠ .endOfInput

@[simp] theorem noEnd_nil : NoEnd [] := List.forall_mem_nil _

@[simp] theorem noEnd_append {v w : List Token} : NoEnd (v ++ w) ↔ NoEnd v ∧ NoEnd w :=
  List.forall_mem_append

@[simp] theorem noEnd_tok_cons {k : Terminal} (t : Tok k) {w : List Token} :
    NoEnd (t.val :: w) ↔ NoEnd w := by
  have ht : t.val.lexeme ≠ .endOfInput := by
    intro h
    have := t.property
    rw [h] at this
    cases k <;> cases this
  simp [NoEnd, ht]

theorem QualifiedName.noEnd (d : QualifiedName) : NoEnd d.tokens := by
  induction d with
  | last name => simp [QualifiedName.tokens]
  | dotted name dot rest ih => simp [QualifiedName.tokens, ih]

mutual

theorem Expression.noEnd (d : Expression) : NoEnd d.tokens := by
  obtain ⟨head, tail⟩ := d
  simp [Expression.tokens, head.noEnd, tail.noEnd]

theorem Operations.noEnd (d : Operations) : NoEnd d.tokens := by
  cases d with
  | nil => simp [Operations.tokens]
  | cons operator term rest => simp [Operations.tokens, term.noEnd, rest.noEnd]

theorem Term.noEnd (d : Term) : NoEnd d.tokens := by
  cases d with
  | plain operand => simp [Term.tokens, operand.noEnd]
  | unary operator operand => simp [Term.tokens, operand.noEnd]

theorem Operand.noEnd (d : Operand) : NoEnd d.tokens := by
  cases d with
  | literal value => simp [Operand.tokens]
  | array start items => simp [Operand.tokens, items.noEnd]
  | object start entries => simp [Operand.tokens, entries.noEnd]
  | paren start inner stop => simp [Operand.tokens, inner.noEnd]
  | expression token =>
    obtain ⟨t, text, ht⟩ := token
    simp [Operand.tokens, NoEnd, ht]
  | reference reference => simp [Operand.tokens, reference.noEnd]
  | call name start args => simp [Operand.tokens, name.noEnd, args.noEnd]

theorem Reference.noEnd (d : Reference) : NoEnd d.tokens := by
  cases d with
  | last part => simp [Reference.tokens, part.noEnd]
  | dotted part dot rest => simp [Reference.tokens, part.noEnd, rest.noEnd]

theorem Part.noEnd (d : Part) : NoEnd d.tokens := by
  obtain ⟨name, subscripts⟩ := d
  simp [Part.tokens, subscripts.noEnd]

theorem Subscripts.noEnd (d : Subscripts) : NoEnd d.tokens := by
  cases d with
  | nil => simp [Subscripts.tokens]
  | cons start index stop rest => simp [Subscripts.tokens, index.noEnd, rest.noEnd]

theorem Arguments.noEnd (d : Arguments) : NoEnd d.tokens := by
  cases d with
  | last value => simp [Arguments.tokens, value.noEnd]
  | cons value comma rest => simp [Arguments.tokens, value.noEnd, rest.noEnd]

theorem ArgumentsUpTo.noEnd {close : Symbol} (d : ArgumentsUpTo close) : NoEnd d.tokens := by
  cases d with
  | none stop => simp [ArgumentsUpTo.tokens]
  | some args stop => simp [ArgumentsUpTo.tokens, args.noEnd]

theorem Entries.noEnd (d : Entries) : NoEnd d.tokens := by
  cases d with
  | last key colon value => simp [Entries.tokens, value.noEnd]
  | cons key colon value comma rest => simp [Entries.tokens, value.noEnd, rest.noEnd]

theorem EntriesUpTo.noEnd (d : EntriesUpTo) : NoEnd d.tokens := by
  cases d with
  | none stop => simp [EntriesUpTo.tokens]
  | some entries stop => simp [EntriesUpTo.tokens, entries.noEnd]

end

theorem NamedArguments.noEnd (d : NamedArguments) : NoEnd d.tokens := by
  induction d with
  | last name assign value => simp [NamedArguments.tokens, value.noEnd]
  | cons name assign value comma rest ih => simp [NamedArguments.tokens, value.noEnd, ih]

theorem NamedUpTo.noEnd (d : NamedUpTo) : NoEnd d.tokens := by
  obtain ⟨args, stop⟩ := d
  simp [NamedUpTo.tokens, args.noEnd]

theorem Clause.noEnd (d : Clause) : NoEnd d.tokens := by
  obtain ⟨start, args⟩ := d
  simp [Clause.tokens, args.noEnd]

theorem NamedOrNone.noEnd (d : NamedOrNone) : NoEnd d.tokens := by
  cases d with
  | none stop => simp [NamedOrNone.tokens]
  | some args => simp [NamedOrNone.tokens, args.noEnd]

theorem CallArguments.noEnd (d : CallArguments) : NoEnd d.tokens := by
  cases d with
  | named args => simp [CallArguments.tokens, args.noEnd]
  | positional args => simp [CallArguments.tokens, args.noEnd]

theorem Options.noEnd (d : Options) : NoEnd d.tokens := by
  cases d with
  | none => simp [Options.tokens]
  | some clause => simp [Options.tokens, clause.noEnd]

theorem Retry.noEnd (d : Retry) : NoEnd d.tokens := by
  cases d with
  | none => simp [Retry.tokens]
  | some retry clause => simp [Retry.tokens, clause.noEnd]

mutual

theorem Statement.noEnd (d : Statement) : NoEnd d.tokens := by
  cases d with
  | assignCall target assign name start args =>
    simp [Statement.tokens, target.noEnd, name.noEnd, args.noEnd]
  | assign target assign value => simp [Statement.tokens, target.noEnd, value.noEnd]
  | call name start args => simp [Statement.tokens, name.noEnd, args.noEnd]
  | conditional if_ first others => simp [Statement.tokens, first.noEnd, others.noEnd]
  | loop loop => simp [Statement.tokens, loop.noEnd]
  | parallel parallel options body => simp [Statement.tokens, options.noEnd, body.noEnd]
  | attempt try_ body retry handler =>
    simp [Statement.tokens, body.noEnd, retry.noEnd, handler.noEnd]
  | throw throw_ value => simp [Statement.tokens, value.noEnd]
  | returnValue return_ value => simp [Statement.tokens, value.noEnd]
  | _ => simp [Statement.tokens]

theorem Statements.noEnd (d : Statements) : NoEnd d.tokens := by
  cases d with
  | nil => simp [Statements.tokens]
  | cons first rest => simp [Statements.tokens, first.noEnd, rest.noEnd]

theorem Block.noEnd (d : Block) : NoEnd d.tokens := by
  obtain ⟨start, statements, stop⟩ := d
  simp [Block.tokens, statements.noEnd]

theorem Condition.noEnd (d : Condition) : NoEnd d.tokens := by
  obtain ⟨start, test, stop, body⟩ := d
  simp [Condition.tokens, test.noEnd, body.noEnd]

theorem ElseClauses.noEnd (d : ElseClauses) : NoEnd d.tokens := by
  cases d with
  | none => simp [ElseClauses.tokens]
  | elseIf else_ if_ condition rest => simp [ElseClauses.tokens, condition.noEnd, rest.noEnd]
  | last else_ body => simp [ElseClauses.tokens, body.noEnd]

theorem Loop.noEnd (d : Loop) : NoEnd d.tokens := by
  obtain ⟨for_, start, name, in_, items, stop, body⟩ := d
  simp [Loop.tokens, items.noEnd, body.noEnd]

theorem ParallelBody.noEnd (d : ParallelBody) : NoEnd d.tokens := by
  cases d with
  | loop loop => simp [ParallelBody.tokens, loop.noEnd]
  | branches branch body rest => simp [ParallelBody.tokens, body.noEnd, rest.noEnd]

theorem Branches.noEnd (d : Branches) : NoEnd d.tokens := by
  cases d with
  | nil => simp [Branches.tokens]
  | cons branch body rest => simp [Branches.tokens, body.noEnd, rest.noEnd]

theorem Handler.noEnd (d : Handler) : NoEnd d.tokens := by
  cases d with
  | none => simp [Handler.tokens]
  | some catch_ start name stop body => simp [Handler.tokens, body.noEnd]

end

theorem Parameters.noEnd (d : Parameters) : NoEnd d.tokens := by
  have single (parameter : Parameter) : NoEnd parameter.tokens := by
    cases parameter with
    | plain name => simp [Parameter.tokens]
    | default name assign value => simp [Parameter.tokens]
  induction d with
  | last parameter => exact single parameter
  | cons parameter comma rest ih => simp [Parameters.tokens, single, ih]

theorem Definition.noEnd (d : Definition) : NoEnd d.tokens := by
  obtain ⟨workflow, name, start, parameters, body⟩ := d
  cases parameters with
  | none stop => simp [Definition.tokens, ParametersUpTo.tokens, body.noEnd]
  | some list stop => simp [Definition.tokens, ParametersUpTo.tokens, list.noEnd, body.noEnd]

theorem Program.noEnd (p : Program) : NoEnd p.tokens := by
  intro t ht
  obtain ⟨d, _, htd⟩ := List.mem_flatMap.mp ht
  exact d.noEnd t htd

end Workflow.Phrase
