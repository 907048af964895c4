import Workflow.Proofs.Grammar.Opening

/-!
# What is read is a phrase

Whatever a function of the grammar reads are the tokens of a phrase, and what it returns is the
tree of that phrase. The statements follow the recursion of the grammar.
-/

namespace Workflow.Grammar

open Phrase

variable {stop : Position}

/-! ## Expressions -/

mutual

theorem exists_expression {s q : List Token} {n : Node} (h : Reads (expression stop s) n q) :
    ∃ d : Phrase.Expression, s = d.tokens ++ q ∧ n = d.node ∧
      accept? .binaryOperator q = none := by
  rw [expression] at h
  simp only [reads_bind, reads_afterSome, reads_pure] at h
  obtain ⟨first, r, hfirst, others, _, hothers, rfl, rfl⟩ := h
  have := hfirst.shorter
  obtain ⟨head, rfl, rfl⟩ := exists_term hfirst
  obtain ⟨tail, rfl, rfl, hq⟩ := exists_operations hothers
  refine ⟨.mk head tail, ?_, ?_, hq⟩
  · simp [Expression.tokens]
  · rw [here_append head.startsWith.ne_nil, Expression.node]
termination_by 8 * s.length + 5
decreasing_by all_goals
  subst_vars
  simp -failIfUnchanged only [List.length_append]
  omega

theorem exists_operations {s q : List Token} {c : List Child}
    (h : ReadsSome (operations stop s) c q) :
    ∃ d : Phrase.Operations, s = d.tokens ++ q ∧ c = d.children ∧
      accept? .binaryOperator q = none := by
  rw [operations] at h
  obtain hnone | ⟨operator, r, rfl⟩ := accept?_cases .binaryOperator s
  · simp only [hnone, readsSome_ok] at h
    obtain ⟨rfl, rfl⟩ := h
    exact ⟨.nil, rfl, rfl, hnone⟩
  · simp only [accept?_tok, readsSome_bind, reads_after, reads_afterSome, readsSome_pure] at h
    obtain ⟨next, r', hnext, others, _, hothers, rfl, rfl⟩ := h
    have := hnext.shorter
    obtain ⟨term, rfl, rfl⟩ := exists_term hnext
    obtain ⟨rest, rfl, rfl, hq⟩ := exists_operations hothers
    exact ⟨.cons operator term rest, by simp [Operations.tokens], rfl, hq⟩
termination_by 8 * s.length
decreasing_by all_goals
  subst_vars
  simp only [List.length_cons, List.length_append]
  omega

theorem exists_term {s q : List Token} {n : Node} (h : Reads (term stop s) n q) :
    ∃ d : Phrase.Term, s = d.tokens ++ q ∧ n = d.node := by
  rw [term] at h
  obtain hnone | ⟨operator, r, rfl⟩ := accept?_cases .unaryOperator s
  · simp only [hnone, reads_bind, reads_pure] at h
    obtain ⟨children, r, hoperand, rfl, rfl⟩ := h
    obtain ⟨operand, rfl, rfl⟩ := exists_operand hoperand
    refine ⟨.plain operand, rfl, ?_⟩
    rw [here_append operand.startsWith.ne_nil, Term.node]
  · simp only [accept?_tok, reads_bind, reads_after, reads_pure] at h
    obtain ⟨children, r, hoperand, rfl, rfl⟩ := h
    obtain ⟨operand, rfl, rfl⟩ := exists_operand hoperand
    exact ⟨.unary operator operand, rfl, rfl⟩
termination_by 8 * s.length + 4
decreasing_by all_goals
  subst_vars
  simp -failIfUnchanged only [List.length_cons]
  omega

theorem exists_operand {s q : List Token} {c : List Child} (h : Reads (operand stop s) c q) :
    ∃ d : Phrase.Operand, s = d.tokens ++ q ∧ c = d.children := by
  cases s with
  | nil =>
    rw [operand] at h
    exact absurd h (not_reads_error _)
  | cons t r =>
    rw [operand] at h
    split at h
    · rename_i hliteral
      obtain ⟨rfl, rfl⟩ := reads_ok.mp h
      exact ⟨.literal ⟨t, hliteral⟩, rfl, rfl⟩
    · split at h
      · rename_i ht
        simp only [reads_bind, reads_after, reads_pure] at h
        obtain ⟨items, r, hitems, rfl, rfl⟩ := h
        obtain ⟨items, rfl, rfl⟩ := exists_argumentsUpTo hitems
        exact ⟨.array ⟨t, decide_eq_true ht⟩ items, rfl, rfl⟩
      · rename_i ht
        simp only [reads_bind, reads_after, reads_pure] at h
        obtain ⟨children, r, hentries, rfl, rfl⟩ := h
        obtain ⟨entries, rfl, rfl⟩ := exists_entriesUpTo hentries
        exact ⟨.object ⟨t, decide_eq_true ht⟩ entries, rfl, rfl⟩
      · rename_i ht
        simp only [reads_bind, reads_after, reads_expect, reads_pure] at h
        obtain ⟨inner, r, hinner, close, _, ⟨hclose, rfl⟩, rfl, rfl⟩ := h
        obtain ⟨inner, rfl, rfl, _⟩ := exists_expression hinner
        exact ⟨.paren ⟨t, decide_eq_true ht⟩ inner ⟨close, hclose⟩, by simp [Operand.tokens], rfl⟩
      · rename_i text ht
        obtain ⟨rfl, rfl⟩ := reads_ok.mp h
        exact ⟨.expression ⟨t, text, ht⟩, rfl, rfl⟩
      · simp only [reads_bind] at h
        obtain ⟨parts, behind, hparts, h⟩ := h
        have := hparts.shorter
        obtain ⟨d, hd, rfl⟩ := exists_reference hparts
        have hplace : here stop (t :: r) = place d.tokens := by
          rw [hd, here_append d.startsWith.ne_nil]
        rw [here_cons] at hplace
        obtain hnone | ⟨start, inside, rfl⟩ := accept?_cases (.symbol .lparen) behind
        · simp only [hnone, after_none, reads_pure] at h
          obtain ⟨rfl, rfl⟩ := h
          exact ⟨.reference d, hd, by rw [hplace, Operand.children]⟩
        · simp only [accept?_tok, after_some, Read.after] at h
          split at h
          · exact absurd h (not_reads_error _)
          · rename_i hplain
            simp only [reads_bind, reads_after, reads_pure] at h
            obtain ⟨args, _, hargs, rfl, rfl⟩ := h
            have : 8 * inside.length + 7 < 8 * (t :: r).length + 3 := by
              simp only [Shorter, List.length_cons] at this ⊢
              omega
            obtain ⟨args, rfl, rfl⟩ := exists_argumentsUpTo hargs
            obtain ⟨name, rfl⟩ := d.exists_qualifiedName (Bool.not_eq_true _ ▸ hplain)
            rw [QualifiedName.tokens_reference] at hd hplace
            refine ⟨.call name start args, by simp [Operand.tokens, hd], ?_⟩
            rw [QualifiedName.nameNode_reference, here_append args.tokens_ne_nil, hplace,
              Operand.children, QualifiedName.node]
      · exact absurd h (not_reads_error _)
termination_by 8 * s.length + 3
decreasing_by all_goals
  subst_vars
  simp only [List.length_cons]
  omega

theorem exists_reference {s q : List Token} {parts : List Node}
    (h : Reads (reference stop s) parts q) :
    ∃ d : Phrase.Reference, s = d.tokens ++ q ∧ parts = d.nodes := by
  rw [reference] at h
  simp only [reads_bind] at h
  obtain ⟨_, r, hpart, h⟩ := h
  have := hpart.shorter
  obtain ⟨part, rfl, rfl⟩ := exists_referencePart hpart
  obtain hnone | ⟨dot, r, rfl⟩ := accept?_cases (.symbol .dot) r
  · simp only [hnone, after_none, reads_pure] at h
    obtain ⟨rfl, rfl⟩ := h
    exact ⟨.last part, rfl, rfl⟩
  · simp only [accept?_tok, after_some, Read.after, reads_bind, reads_after, reads_pure] at h
    obtain ⟨_, r', hparts, rfl, rfl⟩ := h
    obtain ⟨rest, rfl, rfl⟩ := exists_reference hparts
    exact ⟨.dotted part dot rest, by simp [Reference.tokens], rfl⟩
termination_by 8 * s.length + 2
decreasing_by all_goals
  subst_vars
  simp -failIfUnchanged only [List.length_cons, List.length_append]
  omega

theorem exists_referencePart {s q : List Token} {n : Node}
    (h : Reads (referencePart stop s) n q) :
    ∃ d : Phrase.Part, s = d.tokens ++ q ∧ n = d.node := by
  rw [referencePart] at h
  simp only [reads_bind, reads_expect, reads_afterSome, reads_pure] at h
  obtain ⟨name, r, ⟨hname, rfl⟩, _, _, hfound, rfl, rfl⟩ := h
  obtain ⟨found, rfl, rfl⟩ := exists_subscripts hfound
  exact ⟨.mk ⟨name, hname⟩ found, rfl, rfl⟩
termination_by 8 * s.length + 1
decreasing_by all_goals
  subst_vars
  simp only [List.length_cons]
  omega

theorem exists_subscripts {s q : List Token} {found : List Node}
    (h : ReadsSome (subscripts stop s) found q) :
    ∃ d : Phrase.Subscripts, s = d.tokens ++ q ∧ found = d.nodes := by
  rw [subscripts] at h
  obtain hnone | ⟨start, r, rfl⟩ := accept?_cases (.symbol .lbracket) s
  · simp only [hnone, readsSome_ok] at h
    obtain ⟨rfl, rfl⟩ := h
    exact ⟨.nil, rfl, rfl⟩
  · simp only [accept?_tok, readsSome_bind, reads_after, reads_expect, reads_afterSome,
      readsSome_pure] at h
    obtain ⟨_, _, hindex, close, _, ⟨hclose, rfl⟩, _, _, hrest, rfl, rfl⟩ := h
    have := hindex.shorter
    obtain ⟨index, rfl, rfl, _⟩ := exists_expression hindex
    obtain ⟨rest, rfl, rfl⟩ := exists_subscripts hrest
    exact ⟨.cons start index ⟨close, hclose⟩ rest, by simp [Subscripts.tokens], rfl⟩
termination_by 8 * s.length
decreasing_by all_goals
  subst_vars
  simp only [List.length_cons, List.length_append]
  omega

theorem exists_arguments {s q : List Token} {args : List Node}
    (h : Reads (arguments stop s) args q) :
    ∃ d : Phrase.Arguments, s = d.tokens ++ q ∧ args = d.nodes := by
  rw [arguments] at h
  simp only [reads_bind] at h
  obtain ⟨_, r, hfirst, h⟩ := h
  have := hfirst.shorter
  obtain ⟨first, rfl, rfl, _⟩ := exists_expression hfirst
  obtain hnone | ⟨comma, r, rfl⟩ := accept?_cases (.symbol .comma) r
  · simp only [hnone, after_none, reads_pure] at h
    obtain ⟨rfl, rfl⟩ := h
    exact ⟨.last first, rfl, rfl⟩
  · simp only [accept?_tok, after_some, Read.after, reads_bind, reads_after, reads_pure] at h
    obtain ⟨_, r', hothers, rfl, rfl⟩ := h
    obtain ⟨others, rfl, rfl⟩ := exists_arguments hothers
    exact ⟨.cons first comma others, by simp [Arguments.tokens], rfl⟩
termination_by 8 * s.length + 6
decreasing_by all_goals
  subst_vars
  simp -failIfUnchanged only [List.length_cons, List.length_append]
  omega

theorem exists_argumentsUpTo {close : Symbol} {s q : List Token} {args : List Node}
    (h : Reads (argumentsUpTo stop close s) args q) :
    ∃ d : Phrase.ArgumentsUpTo close, s = d.tokens ++ q ∧ args = d.nodes := by
  rw [argumentsUpTo] at h
  obtain hnone | ⟨last, r, rfl⟩ := accept?_cases (.symbol close) s
  · simp only [hnone, reads_bind, reads_after, reads_expect, reads_pure] at h
    obtain ⟨_, _, hargs, last, _, ⟨hlast, rfl⟩, rfl, rfl⟩ := h
    obtain ⟨args, rfl, rfl⟩ := exists_arguments hargs
    exact ⟨.some args ⟨last, hlast⟩, by simp [ArgumentsUpTo.tokens], rfl⟩
  · simp only [accept?_tok, reads_ok] at h
    obtain ⟨rfl, rfl⟩ := h
    exact ⟨.none last, rfl, rfl⟩
termination_by 8 * s.length + 7
decreasing_by all_goals
  subst_vars
  omega

theorem exists_entries {s q : List Token} {c : List Child} (h : Reads (entries stop s) c q) :
    ∃ d : Phrase.Entries, s = d.tokens ++ q ∧ c = d.children := by
  rw [entries] at h
  simp only [reads_bind, reads_after, reads_expect] at h
  obtain ⟨key, _, ⟨hkey, rfl⟩, colon, _, ⟨hcolon, rfl⟩, _, r, hvalue, h⟩ := h
  have := hvalue.shorter
  obtain ⟨value, rfl, rfl, _⟩ := exists_expression hvalue
  obtain hnone | ⟨comma, r, rfl⟩ := accept?_cases (.symbol .comma) r
  · simp only [hnone, after_none, reads_pure] at h
    obtain ⟨rfl, rfl⟩ := h
    exact ⟨.last ⟨key, hkey⟩ ⟨colon, hcolon⟩ value, rfl, rfl⟩
  · simp only [accept?_tok, after_some, Read.after, reads_bind, reads_after, reads_pure] at h
    obtain ⟨_, r', hothers, rfl, rfl⟩ := h
    obtain ⟨others, rfl, rfl⟩ := exists_entries hothers
    exact ⟨.cons ⟨key, hkey⟩ ⟨colon, hcolon⟩ value comma others, by simp [Entries.tokens], rfl⟩
termination_by 8 * s.length
decreasing_by all_goals
  subst_vars
  simp only [List.length_cons, List.length_append]
  omega

theorem exists_entriesUpTo {s q : List Token} {c : List Child}
    (h : Reads (entriesUpTo stop s) c q) :
    ∃ d : Phrase.EntriesUpTo, s = d.tokens ++ q ∧ c = d.children := by
  rw [entriesUpTo] at h
  obtain hnone | ⟨last, r, rfl⟩ := accept?_cases (.symbol .rbrace) s
  · simp only [hnone, reads_bind, reads_after, reads_expect, reads_pure] at h
    obtain ⟨_, _, hentries, last, _, ⟨hlast, rfl⟩, rfl, rfl⟩ := h
    obtain ⟨entries, rfl, rfl⟩ := exists_entries hentries
    exact ⟨.some entries ⟨last, hlast⟩, by simp [EntriesUpTo.tokens], rfl⟩
  · simp only [accept?_tok, reads_ok] at h
    obtain ⟨rfl, rfl⟩ := h
    exact ⟨.none last, rfl, rfl⟩
termination_by 8 * s.length + 1
decreasing_by all_goals
  subst_vars
  omega

end

/-! ## Named arguments and calls -/

theorem exists_namedEntries {s q : List Token} {c : List Child}
    (h : Reads (namedEntries stop s) c q) :
    ∃ d : Phrase.NamedArguments, s = d.tokens ++ q ∧ c = d.children := by
  rw [namedEntries] at h
  simp only [reads_bind, reads_after, reads_expect] at h
  obtain ⟨name, _, ⟨hname, rfl⟩, assign, _, ⟨hassign, rfl⟩, _, r, hvalue, h⟩ := h
  have := hvalue.shorter
  obtain ⟨value, rfl, rfl, _⟩ := exists_expression hvalue
  obtain hnone | ⟨comma, r, rfl⟩ := accept?_cases (.symbol .comma) r
  · simp only [hnone, after_none, reads_pure] at h
    obtain ⟨rfl, rfl⟩ := h
    exact ⟨.last ⟨name, hname⟩ ⟨assign, hassign⟩ value, rfl, rfl⟩
  · simp only [accept?_tok, after_some, Read.after, reads_bind, reads_after, reads_pure] at h
    obtain ⟨_, _, hothers, rfl, rfl⟩ := h
    obtain ⟨others, rfl, rfl⟩ := exists_namedEntries hothers
    exact ⟨.cons ⟨name, hname⟩ ⟨assign, hassign⟩ value comma others,
      by simp [NamedArguments.tokens], rfl⟩
termination_by s.length
decreasing_by all_goals
  subst_vars
  simp only [List.length_cons, List.length_append]
  omega

theorem exists_namedArgumentsUpTo {s q : List Token} {c : Child}
    (h : Reads (namedArgumentsUpTo stop s) c q) :
    ∃ d : Phrase.NamedUpTo, s = d.tokens ++ q ∧ c = d.child := by
  simp only [namedArgumentsUpTo, namedArguments, reads_bind, reads_after, reads_expect,
    reads_pure] at h
  obtain ⟨_, _, ⟨_, _, hargs, rfl, rfl⟩, last, _, ⟨hlast, rfl⟩, rfl, rfl⟩ := h
  obtain ⟨args, rfl, rfl⟩ := exists_namedEntries hargs
  refine ⟨.mk args ⟨last, hlast⟩, by simp [NamedUpTo.tokens], ?_⟩
  rw [here_append args.startsWith.ne_nil, NamedUpTo.child]

theorem exists_namedOrNoArguments {s q : List Token} {c : List Child}
    (h : Reads (namedOrNoArguments stop s) c q) :
    ∃ d : Phrase.NamedOrNone, s = d.tokens ++ q ∧ c = d.children := by
  rw [namedOrNoArguments] at h
  obtain hnone | ⟨last, r, rfl⟩ := accept?_cases (.symbol .rparen) s
  · simp only [hnone, reads_bind, reads_pure] at h
    obtain ⟨_, _, hargs, rfl, rfl⟩ := h
    obtain ⟨args, rfl, rfl⟩ := exists_namedArgumentsUpTo hargs
    exact ⟨.some args, rfl, rfl⟩
  · simp only [accept?_tok, reads_ok] at h
    obtain ⟨rfl, rfl⟩ := h
    exact ⟨.none last, rfl, rfl⟩

theorem exists_nameTokens {s q : List Token} {names : List Token}
    (h : Reads (nameTokens stop s) names q) :
    ∃ d : Phrase.QualifiedName, s = d.tokens ++ q ∧ names = d.names := by
  rw [nameTokens] at h
  simp only [reads_bind, reads_expect] at h
  obtain ⟨first, r, ⟨hfirst, rfl⟩, h⟩ := h
  obtain hnone | ⟨dot, r, rfl⟩ := accept?_cases (.symbol .dot) r
  · simp only [hnone, after_none, reads_pure] at h
    obtain ⟨rfl, rfl⟩ := h
    exact ⟨.last ⟨first, hfirst⟩, rfl, rfl⟩
  · simp only [accept?_tok, after_some, Read.after, reads_bind, reads_after, reads_pure] at h
    obtain ⟨_, _, hothers, rfl, rfl⟩ := h
    obtain ⟨others, rfl, rfl⟩ := exists_nameTokens hothers
    exact ⟨.dotted ⟨first, hfirst⟩ dot others, rfl, rfl⟩
termination_by s.length
decreasing_by all_goals
  subst_vars
  simp only [List.length_cons]
  omega

theorem exists_namedCall {s q : List Token} {n : Node} (h : Reads (namedCall stop s) n q) :
    ∃ (name : Phrase.QualifiedName) (start : Sign .lparen) (args : Phrase.NamedOrNone),
      s = name.tokens ++ start.val :: (args.tokens ++ q) ∧
      n = .mk .namedCall (place name.tokens) (.node .qualifiedName name.node :: args.children) ∧
      accept? .binaryOperator q = none := by
  simp only [namedCall, reads_bind, reads_after, reads_expect] at h
  obtain ⟨_, _, hname, start, _, ⟨hstart, rfl⟩, _, r, hargs, h⟩ := h
  obtain ⟨name, rfl, rfl⟩ := exists_nameTokens hname
  obtain ⟨args, rfl, rfl⟩ := exists_namedOrNoArguments hargs
  split at h
  · exact absurd h (not_reads_error _)
  · rename_i hnone
    obtain ⟨rfl, rfl⟩ := reads_pure.mp h
    refine ⟨name, ⟨start, hstart⟩, args, rfl, ?_, by simpa using hnone⟩
    rw [here_append name.startsWith.ne_nil, QualifiedName.node]

theorem exists_callArguments {s q : List Token} {c : List Child}
    (h : Reads (callArguments stop s) c q) :
    ∃ d : Phrase.CallArguments, s = d.tokens ++ q ∧ c = d.children := by
  rw [callArguments] at h
  split at h
  · simp only [reads_bind, reads_pure] at h
    obtain ⟨_, _, hargs, rfl, rfl⟩ := h
    obtain ⟨args, rfl, rfl⟩ := exists_namedArgumentsUpTo hargs
    exact ⟨.named args, rfl, rfl⟩
  · simp only [reads_bind, reads_pure] at h
    obtain ⟨_, _, hargs, rfl, rfl⟩ := h
    obtain ⟨args, rfl, rfl⟩ := exists_argumentsUpTo hargs
    refine ⟨.positional args, rfl, ?_⟩
    rw [here_append args.tokens_ne_nil, CallArguments.children]

theorem exists_callOrAssignment {s q : List Token} {n : Node}
    (h : Reads (callOrAssignment stop s) n q) :
    ∃ d : Phrase.Statement, s = d.tokens ++ q ∧ n = d.node ∧ d.Settled q.head? := by
  simp only [callOrAssignment, reads_bind] at h
  obtain ⟨_, behind, hparts, h⟩ := h
  obtain ⟨target, rfl, rfl⟩ := exists_reference hparts
  rw [here_append target.startsWith.ne_nil] at h
  obtain hnone | ⟨assign, r, rfl⟩ := accept?_cases (.symbol .assign) behind
  · simp only [hnone, after_none] at h
    obtain hnone | ⟨start, r, rfl⟩ := accept?_cases (.symbol .lparen) behind
    · simp only [hnone, after_none] at h
      exact absurd h (not_reads_error _)
    · simp only [accept?_tok, after_some, Read.after] at h
      split at h
      · exact absurd h (not_reads_error _)
      · rename_i hplain
        simp only [reads_bind, reads_after, reads_pure] at h
        obtain ⟨_, _, hargs, rfl, rfl⟩ := h
        obtain ⟨args, rfl, rfl⟩ := exists_callArguments hargs
        obtain ⟨name, rfl⟩ := target.exists_qualifiedName (Bool.not_eq_true _ ▸ hplain)
        refine ⟨.call name start args, by simp [Statement.tokens], ?_, by simp [Statement.Settled]⟩
        rw [QualifiedName.nameNode_reference, QualifiedName.tokens_reference, Statement.node,
          QualifiedName.node]
  · simp only [accept?_tok, after_some, Read.after] at h
    split at h
    · simp only [reads_bind, reads_after, reads_pure] at h
      obtain ⟨_, _, hcall, rfl, rfl⟩ := h
      obtain ⟨name, start, args, rfl, rfl, hq⟩ := exists_namedCall hcall
      refine ⟨.assignCall target assign name start args, by simp [Statement.tokens], rfl, ?_⟩
      cases args with
      | none stop => exact accept?_eq_none_iff.mp hq
      | some args => simp [Statement.Settled]
    · rename_i hahead
      simp only [reads_bind, reads_after, reads_pure] at h
      obtain ⟨_, _, hvalue, rfl, rfl⟩ := h
      obtain ⟨value, rfl, rfl, hq⟩ := exists_expression hvalue
      refine ⟨.assign target assign value, by simp [Statement.tokens], rfl, ?_⟩
      rw [Statement.Settled]
      cases hempty : value.isEmptyCall with
      | false => rfl
      | true => exact absurd (namedCallAhead_of_isEmptyCall hempty hq) hahead

/-! ## Statements -/

theorem exists_clauseArguments {s q : List Token} {c : Child}
    (h : Reads (clauseArguments stop s) c q) :
    ∃ d : Phrase.Clause, s = d.tokens ++ q ∧ c = d.child := by
  simp only [clauseArguments, reads_bind, reads_expect, reads_after] at h
  obtain ⟨start, _, ⟨hstart, rfl⟩, hargs⟩ := h
  obtain ⟨args, rfl, rfl⟩ := exists_namedArgumentsUpTo hargs
  exact ⟨.mk ⟨start, hstart⟩ args, rfl, rfl⟩

theorem exists_parallelArguments {s q : List Token} {c : List Child}
    (h : ReadsSome (parallelArguments stop s) c q) :
    ∃ d : Phrase.Options, s = d.tokens ++ q ∧ c = d.children := by
  rw [parallelArguments] at h
  split at h
  · simp only [readsSome_bind, readsSome_pure] at h
    obtain ⟨_, _, hclause, rfl, rfl⟩ := h
    obtain ⟨clause, rfl, rfl⟩ := exists_clauseArguments hclause
    exact ⟨.some clause, rfl, rfl⟩
  · obtain ⟨rfl, rfl⟩ := readsSome_ok.mp h
    exact ⟨.none, rfl, rfl⟩

theorem exists_retryClause {s q : List Token} {c : List Child}
    (h : ReadsSome (retryClause stop s) c q) :
    ∃ d : Phrase.Retry, s = d.tokens ++ q ∧ c = d.children := by
  rw [retryClause] at h
  obtain hnone | ⟨retry, r, rfl⟩ := accept?_cases (.keyword .retry) s
  · simp only [hnone, readsSome_ok] at h
    obtain ⟨rfl, rfl⟩ := h
    exact ⟨.none, rfl, rfl⟩
  · simp only [accept?_tok, readsSome_bind, reads_after, readsSome_pure] at h
    obtain ⟨_, _, hclause, rfl, rfl⟩ := h
    obtain ⟨clause, rfl, rfl⟩ := exists_clauseArguments hclause
    exact ⟨.some retry clause, rfl, rfl⟩

mutual

theorem exists_statements {s q : List Token} {found : List Node}
    (h : ReadsSome (statements stop s) found q) :
    ∃ d : Phrase.Statements, s = d.tokens ++ q ∧ found = d.nodes ∧ d.Settled q.head? := by
  rw [statements] at h
  split at h
  · obtain ⟨rfl, rfl⟩ := readsSome_ok.mp h
    exact ⟨.nil, rfl, rfl, trivial⟩
  · simp only [readsSome_bind, reads_afterSome, readsSome_pure] at h
    obtain ⟨_, _, hfirst, _, _, hothers, rfl, rfl⟩ := h
    have := hfirst.shorter
    obtain ⟨first, rfl, rfl, hsettled⟩ := exists_statement hfirst
    obtain ⟨others, rfl, rfl, hothersSettled⟩ := exists_statements hothers
    rw [List.head?_append] at hsettled
    exact ⟨.cons first others, by simp [Statements.tokens], rfl, hsettled, hothersSettled⟩
termination_by 4 * s.length + 3
decreasing_by all_goals omega

theorem exists_block {s q : List Token} {n : Node} (h : Reads (block stop s) n q) :
    ∃ d : Phrase.Block, s = d.tokens ++ q ∧ n = d.node ∧ d.Settled := by
  rw [block] at h
  simp only [reads_bind, reads_expect, reads_afterSome, reads_after, reads_pure] at h
  obtain ⟨start, _, ⟨hstart, rfl⟩, _, _, hfound, close, _, ⟨hclose, rfl⟩, rfl, rfl⟩ := h
  obtain ⟨found, rfl, rfl, hsettled⟩ := exists_statements hfound
  refine ⟨.mk ⟨start, hstart⟩ found ⟨close, hclose⟩, by simp [Block.tokens], ?_, ?_⟩
  · rw [Block.node, List.append_cons, here_append (by simp)]
  · exact hsettled
termination_by 4 * s.length
decreasing_by all_goals
  subst_vars
  simp only [List.length_cons]
  omega

theorem exists_statement {s q : List Token} {n : Node} (h : Reads (statement stop s) n q) :
    ∃ d : Phrase.Statement, s = d.tokens ++ q ∧ n = d.node ∧ d.Settled q.head? := by
  cases s with
  | nil =>
    rw [statement] at h
    exact absurd h (not_reads_error _)
  | cons t r =>
    rw [statement] at h
    split at h
    · exact exists_callOrAssignment h
    · rename_i ht
      simp only [reads_bind, reads_after, reads_afterSome, reads_pure] at h
      obtain ⟨_, _, hfirst, _, _, hothers, rfl, rfl⟩ := h
      have := hfirst.shorter
      obtain ⟨first, rfl, rfl, hfirstSettled⟩ := exists_condition hfirst
      obtain ⟨others, rfl, rfl, hothersSettled⟩ := exists_elseClauses hothers
      exact ⟨.conditional ⟨t, decide_eq_true ht⟩ first others, by simp [Statement.tokens], rfl,
        hfirstSettled, hothersSettled⟩
    · rename_i ht
      obtain ⟨d, htokens, rfl, hsettled⟩ :=
        exists_loop ⟨t, decide_eq_true ht⟩ (reads_after.mp h)
      exact ⟨.loop d, htokens, rfl, hsettled⟩
    · rename_i ht
      simp only [reads_bind, reads_after, reads_afterSome, reads_pure] at h
      obtain ⟨_, _, hoptions, _, _, hbody, rfl, rfl⟩ := h
      have := hoptions.notLonger
      obtain ⟨options, rfl, rfl⟩ := exists_parallelArguments hoptions
      obtain ⟨body, rfl, rfl, hsettled⟩ := exists_parallelBody hbody
      exact ⟨.parallel ⟨t, decide_eq_true ht⟩ options body, by simp [Statement.tokens], rfl,
        hsettled⟩
    · rename_i ht
      simp only [reads_bind, reads_after, reads_afterSome] at h
      obtain ⟨_, _, hbody, _, _, hretry, _, _, hhandler, h⟩ := h
      have := hbody.shorter
      have := hretry.notLonger
      obtain ⟨body, rfl, rfl, hsettled⟩ := exists_block hbody
      obtain ⟨retry, rfl, rfl⟩ := exists_retryClause hretry
      obtain ⟨handler, rfl, rfl, hhandlerSettled⟩ := exists_catchClause hhandler
      split at h
      · exact absurd h (not_reads_error _)
      · rename_i hsome
        obtain ⟨rfl, rfl⟩ := reads_pure.mp h
        refine ⟨.attempt ⟨t, decide_eq_true ht⟩ body retry handler, by simp [Statement.tokens],
          rfl, hsettled, ?_, hhandlerSettled⟩
        -- neither clause has children only if both are missing
        by_cases hretry : retry = .none
        · refine .inr fun hhandler => hsome ?_
          rw [hretry, hhandler]
          rfl
        · exact .inl hretry
    · rename_i ht
      simp only [reads_bind, reads_after, reads_pure] at h
      obtain ⟨_, _, hvalue, rfl, rfl⟩ := h
      obtain ⟨value, rfl, rfl, _⟩ := exists_expression hvalue
      exact ⟨.throw ⟨t, decide_eq_true ht⟩ value, rfl, rfl, trivial⟩
    · rename_i ht
      obtain ⟨rfl, rfl⟩ := reads_ok.mp h
      exact ⟨.break ⟨t, decide_eq_true ht⟩, rfl, rfl, trivial⟩
    · rename_i ht
      obtain ⟨rfl, rfl⟩ := reads_ok.mp h
      exact ⟨.continue ⟨t, decide_eq_true ht⟩, rfl, rfl, trivial⟩
    · rename_i ht
      split at h
      · simp only [reads_bind, reads_after, reads_pure] at h
        obtain ⟨_, _, hvalue, rfl, rfl⟩ := h
        obtain ⟨value, rfl, rfl, _⟩ := exists_expression hvalue
        exact ⟨.returnValue ⟨t, decide_eq_true ht⟩ value, rfl, rfl, trivial⟩
      · rename_i hstarts
        obtain ⟨rfl, rfl⟩ := reads_ok.mp h
        refine ⟨.returnNothing ⟨t, decide_eq_true ht⟩, rfl, rfl, fun u hu hstart => hstarts ?_⟩
        rw [canStartExpression_iff] at hstart
        rw [Option.mem_def.mp hu]
        exact hstart
    · exact absurd h (not_reads_error _)
termination_by 4 * s.length + 2
decreasing_by all_goals
  subst_vars
  simp only [List.length_cons, List.length_append]
  omega

theorem exists_condition {s q : List Token} {c : List Child} (h : Reads (condition stop s) c q) :
    ∃ d : Phrase.Condition, s = d.tokens ++ q ∧ c = d.children ∧ d.Settled := by
  rw [condition] at h
  simp only [reads_bind, reads_expect, reads_after, reads_pure] at h
  obtain ⟨start, _, ⟨hstart, rfl⟩, _, _, htest, close, _, ⟨hclose, rfl⟩, _, _, hbody, rfl, rfl⟩ :=
    h
  have := htest.shorter
  obtain ⟨test, rfl, rfl, _⟩ := exists_expression htest
  obtain ⟨body, rfl, rfl, hsettled⟩ := exists_block hbody
  exact ⟨.mk ⟨start, hstart⟩ test ⟨close, hclose⟩ body, by simp [Condition.tokens], rfl, hsettled⟩
termination_by 4 * s.length + 1
decreasing_by all_goals
  subst_vars
  simp only [List.length_cons, List.length_append]
  omega

theorem exists_elseClauses {s q : List Token} {c : List Child}
    (h : ReadsSome (elseClauses stop s) c q) :
    ∃ d : Phrase.ElseClauses, s = d.tokens ++ q ∧ c = d.children ∧ d.Settled := by
  rw [elseClauses] at h
  obtain hnone | ⟨else_, behind, rfl⟩ := accept?_cases (.keyword .else) s
  · simp only [hnone, readsSome_ok] at h
    obtain ⟨rfl, rfl⟩ := h
    exact ⟨.none, rfl, rfl, trivial⟩
  · obtain hnone | ⟨if_, r, rfl⟩ := accept?_cases (.keyword .if) behind
    · simp only [accept?_tok, hnone, after_none, readsSome_bind, reads_after,
        readsSome_pure] at h
      obtain ⟨_, _, hbody, rfl, rfl⟩ := h
      obtain ⟨body, rfl, rfl, hsettled⟩ := exists_block hbody
      exact ⟨.last else_ body, rfl, rfl, hsettled⟩
    · simp only [accept?_tok, after_some, Read.after, readsSome_bind, reads_after,
        reads_afterSome, readsSome_pure] at h
      obtain ⟨_, _, hfirst, _, _, hothers, rfl, rfl⟩ := h
      have := hfirst.shorter
      obtain ⟨first, rfl, rfl, hsettled⟩ := exists_condition hfirst
      obtain ⟨others, rfl, rfl, hothersSettled⟩ := exists_elseClauses hothers
      exact ⟨.elseIf else_ if_ first others, by simp [ElseClauses.tokens], rfl, hsettled,
        hothersSettled⟩
termination_by 4 * s.length
decreasing_by all_goals
  subst_vars
  simp only [List.length_cons, List.length_append]
  omega

theorem exists_loop (for_ : Word .for) {s q : List Token} {n : Node}
    (h : Reads (loop stop for_.val s) n q) :
    ∃ d : Phrase.Loop, for_.val :: s = d.tokens ++ q ∧ n = d.node ∧ d.Settled := by
  rw [loop] at h
  simp only [reads_bind, reads_expect, reads_after, reads_pure] at h
  obtain ⟨start, _, ⟨hstart, rfl⟩, name, _, ⟨hname, rfl⟩, in_, _, ⟨hin, rfl⟩, _, _, hitems,
    close, _, ⟨hclose, rfl⟩, _, _, hbody, rfl, rfl⟩ := h
  have := hitems.shorter
  obtain ⟨items, rfl, rfl, _⟩ := exists_expression hitems
  obtain ⟨body, rfl, rfl, hsettled⟩ := exists_block hbody
  exact ⟨.mk for_ ⟨start, hstart⟩ ⟨name, hname⟩ ⟨in_, hin⟩ items ⟨close, hclose⟩ body,
    by simp [Loop.tokens], rfl, hsettled⟩
termination_by 4 * s.length + 1
decreasing_by all_goals
  subst_vars
  simp only [List.length_cons, List.length_append]
  omega

theorem exists_parallelBody {s q : List Token} {c : List Child}
    (h : Reads (parallelBody stop s) c q) :
    ∃ d : Phrase.ParallelBody, s = d.tokens ++ q ∧ c = d.children ∧ d.Settled := by
  rw [parallelBody] at h
  obtain hnone | ⟨for_, r, rfl⟩ := accept?_cases (.keyword .for) s
  · simp only [hnone] at h
    obtain hnone | ⟨branch, r, rfl⟩ := accept?_cases (.keyword .branch) s
    · simp only [hnone] at h
      exact absurd h (not_reads_error _)
    · simp only [accept?_tok, reads_bind, reads_after, reads_afterSome, reads_pure] at h
      obtain ⟨_, _, hbody, _, _, hothers, rfl, rfl⟩ := h
      have := hbody.shorter
      obtain ⟨body, rfl, rfl, hsettled⟩ := exists_block hbody
      obtain ⟨others, rfl, rfl, hothersSettled⟩ := exists_branches hothers
      exact ⟨.branches branch body others, by simp [ParallelBody.tokens], rfl, hsettled,
        hothersSettled⟩
  · simp only [accept?_tok, reads_bind, reads_after, reads_pure] at h
    obtain ⟨_, _, hloop, rfl, rfl⟩ := h
    obtain ⟨d, htokens, rfl, hsettled⟩ := exists_loop for_ hloop
    exact ⟨.loop d, htokens, rfl, hsettled⟩
termination_by 4 * s.length
decreasing_by all_goals
  subst_vars
  simp only [List.length_cons, List.length_append]
  omega

theorem exists_branches {s q : List Token} {c : List Child}
    (h : ReadsSome (branches stop s) c q) :
    ∃ d : Phrase.Branches, s = d.tokens ++ q ∧ c = d.children ∧ d.Settled := by
  rw [branches] at h
  obtain hnone | ⟨branch, r, rfl⟩ := accept?_cases (.keyword .branch) s
  · simp only [hnone, readsSome_ok] at h
    obtain ⟨rfl, rfl⟩ := h
    exact ⟨.nil, rfl, rfl, trivial⟩
  · simp only [accept?_tok, readsSome_bind, reads_after, reads_afterSome, readsSome_pure] at h
    obtain ⟨_, _, hbody, _, _, hothers, rfl, rfl⟩ := h
    have := hbody.shorter
    obtain ⟨body, rfl, rfl, hsettled⟩ := exists_block hbody
    obtain ⟨others, rfl, rfl, hothersSettled⟩ := exists_branches hothers
    exact ⟨.cons branch body others, by simp [Branches.tokens], rfl, hsettled, hothersSettled⟩
termination_by 4 * s.length
decreasing_by all_goals
  subst_vars
  simp only [List.length_cons, List.length_append]
  omega

theorem exists_catchClause {s q : List Token} {c : List Child}
    (h : ReadsSome (catchClause stop s) c q) :
    ∃ d : Phrase.Handler, s = d.tokens ++ q ∧ c = d.children ∧ d.Settled := by
  rw [catchClause] at h
  obtain hnone | ⟨catch_, r, rfl⟩ := accept?_cases (.keyword .catch) s
  · simp only [hnone, readsSome_ok] at h
    obtain ⟨rfl, rfl⟩ := h
    exact ⟨.none, rfl, rfl, trivial⟩
  · simp only [accept?_tok, caughtName, readsSome_bind, reads_bind, reads_expect, reads_after,
      reads_pure, readsSome_pure] at h
    obtain ⟨_, _, ⟨start, _, ⟨hstart, rfl⟩, name, _, ⟨hname, rfl⟩, close, _, ⟨hclose, rfl⟩, rfl,
      rfl⟩, _, _, hbody, rfl, rfl⟩ := h
    obtain ⟨body, rfl, rfl, hsettled⟩ := exists_block hbody
    exact ⟨.some catch_ ⟨start, hstart⟩ ⟨name, hname⟩ ⟨close, hclose⟩ body, rfl, rfl, hsettled⟩
termination_by 4 * s.length
decreasing_by all_goals
  subst_vars
  simp only [List.length_cons]
  omega

end

/-! ## Programs -/

theorem exists_parameter {s q : List Token} {n : Node} (h : Reads (parameter stop s) n q) :
    ∃ d : Phrase.Parameter, s = d.tokens ++ q ∧ n = d.node := by
  simp only [parameter, reads_bind, reads_expect] at h
  obtain ⟨name, r, ⟨hname, rfl⟩, h⟩ := h
  obtain hnone | ⟨assign, r, rfl⟩ := accept?_cases (.symbol .assign) r
  · simp only [hnone, after_none, reads_pure] at h
    obtain ⟨rfl, rfl⟩ := h
    exact ⟨.plain ⟨name, hname⟩, rfl, rfl⟩
  · simp only [accept?_tok, after_some, Read.after, reads_bind, reads_after, reads_expect,
      reads_pure] at h
    obtain ⟨value, _, ⟨hvalue, rfl⟩, rfl, rfl⟩ := h
    exact ⟨.default ⟨name, hname⟩ assign ⟨value, hvalue⟩, rfl, rfl⟩

theorem exists_parameters {s q : List Token} {found : List Node}
    (h : Reads (parameters stop s) found q) :
    ∃ d : Phrase.Parameters, s = d.tokens ++ q ∧ found = d.nodes := by
  rw [parameters] at h
  simp only [reads_bind] at h
  obtain ⟨_, r, hfirst, h⟩ := h
  have := hfirst.shorter
  obtain ⟨first, rfl, rfl⟩ := exists_parameter hfirst
  obtain hnone | ⟨comma, r, rfl⟩ := accept?_cases (.symbol .comma) r
  · simp only [hnone, after_none, reads_pure] at h
    obtain ⟨rfl, rfl⟩ := h
    exact ⟨.last first, rfl, rfl⟩
  · simp only [accept?_tok, after_some, Read.after, reads_bind, reads_after, reads_pure] at h
    obtain ⟨_, _, hothers, rfl, rfl⟩ := h
    obtain ⟨others, rfl, rfl⟩ := exists_parameters hothers
    exact ⟨.cons first comma others, by simp [Parameters.tokens], rfl⟩
termination_by s.length
decreasing_by all_goals
  subst_vars
  simp only [List.length_cons, List.length_append]
  omega

theorem exists_parameterList {s q : List Token} {n : Node}
    (h : Reads (parameterList stop s) n q) :
    ∃ d : Phrase.ParametersUpTo, s = d.tokens ++ q ∧ n = d.node := by
  rw [parameterList] at h
  obtain hnone | ⟨last, r, rfl⟩ := accept?_cases (.symbol .rparen) s
  · simp only [hnone, reads_bind, reads_after, reads_expect, reads_pure] at h
    obtain ⟨_, _, hfound, last, _, ⟨hlast, rfl⟩, rfl, rfl⟩ := h
    obtain ⟨found, rfl, rfl⟩ := exists_parameters hfound
    refine ⟨.some found ⟨last, hlast⟩, by simp [ParametersUpTo.tokens], ?_⟩
    rw [List.append_cons, here_append (by simp), ParametersUpTo.node, ParametersUpTo.tokens,
      ParametersUpTo.nodes]
  · simp only [accept?_tok, reads_ok] at h
    obtain ⟨rfl, rfl⟩ := h
    exact ⟨.none last, rfl, rfl⟩

theorem exists_definition {s q : List Token} {n : Node} (h : Reads (definition stop s) n q) :
    ∃ d : Phrase.Definition, s = d.tokens ++ q ∧ n = d.node ∧ d.Settled := by
  simp only [definition, reads_bind, reads_expect, reads_after, reads_pure] at h
  obtain ⟨workflow, _, ⟨hworkflow, rfl⟩, name, _, ⟨hname, rfl⟩, start, _, ⟨hstart, rfl⟩, _, _,
    hlist, _, _, hbody, rfl, rfl⟩ := h
  obtain ⟨list, rfl, rfl⟩ := exists_parameterList hlist
  obtain ⟨body, rfl, rfl, hsettled⟩ := exists_block hbody
  exact ⟨.mk ⟨workflow, hworkflow⟩ ⟨name, hname⟩ ⟨start, hstart⟩ list body,
    by simp [Definition.tokens], rfl, hsettled⟩

theorem exists_definitions {s : List Token} {found : List Node}
    (h : definitions stop s = .ok found) :
    ∃ p : Phrase.Program, s = p.tokens ∧ found = p.map Definition.node ∧ p.Settled := by
  rw [definitions] at h
  split at h
  · rename_i hempty
    cases h
    exact ⟨[], List.isEmpty_iff.mp hempty, rfl, by simp [Program.Settled]⟩
  · obtain ⟨⟨first, r, hr⟩, hfirst, h⟩ := bind_eq_ok.mp h
    obtain ⟨others, hothers, h⟩ := bind_eq_ok.mp h
    cases h
    obtain ⟨d, hs, hd, hsettled⟩ := exists_definition (reads_of_eq_ok hfirst)
    obtain ⟨p, hr', hp, hall⟩ := exists_definitions hothers
    refine ⟨d :: p, ?_, ?_, ?_⟩
    · rw [hs, Program.tokens, List.flatMap_cons]
      exact congrArg (d.tokens ++ ·) hr'
    · rw [List.map_cons, ← hp, ← hd]
    · simpa [Program.Settled] using ⟨hsettled, hall⟩
termination_by s.length
decreasing_by all_goals
  subst_vars
  omega

end Workflow.Grammar
