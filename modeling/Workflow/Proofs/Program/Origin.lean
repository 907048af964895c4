import Workflow.Proofs.Build.Statement
import Workflow.Proofs.Expr.Origin
import Workflow.Proofs.Grammar.Opening

/-!
# Where expressions come from

An expression that a step holds is built from a phrase among the tokens of the program, but for two
that building adds: the reference to a temporary, and the condition of an alternative that has none.
This is said here of the arguments of calls and of the items of loops.
-/

namespace Workflow

open Token

/-! ## What building gives -/

/-- What is built, if anything is, has a property. -/
def Gives {α : Type} (P : α → Prop) (x : Build α) : Prop :=
  ∀ n a m, x n = .ok (a, m) → P a

section

variable {α β : Type} {P : α → Prop} {Q : β → Prop}

theorem gives_pure {a : α} (h : P a) : Gives P (pure a) := by
  intro n a' m hrun
  cases hrun
  exact h

theorem Gives.bind {x : Build α} {f : α → Build β} (hx : Gives P x)
    (hf : ∀ a, P a → Gives Q (f a)) : Gives Q (x >>= f) := by
  intro n b m hrun
  obtain ⟨⟨a, k⟩, ha, hb⟩ := bind_eq_ok.mp hrun
  exact hf a (hx n a k ha) k b m hb

/-- A step that needs no temporaries. -/
theorem gives_lift {x : Except BuildError α} (h : ∀ a, x = .ok a → P a) :
    Gives P (liftM x : Build α) := by
  intro n a m hrun
  obtain ⟨b, hb, hrun⟩ := bind_eq_ok.mp hrun
  cases hrun
  exact h a hb

end

/-- No reserved word starts with an underscore. -/
theorem ofWord_underscore (body : List Char) :
    Lexeme.ofWord (String.ofList ('_' :: body)) = .identifier (String.ofList ('_' :: body)) := by
  have hkeyword : ∀ k : Keyword, k.text.toList.head? ≠ some '_' := by
    intro k
    cases k with
    | _ => decide
  have hnone : Keyword.ofText? (String.ofList ('_' :: body)) = none := by
    refine List.find?_eq_none.mpr fun k _ htext => hkeyword k ?_
    rw [eq_of_beq htext, String.toList_ofList]
    rfl
  rw [Lexeme.ofWord, hnone]

theorem isName_temporary (n : Nat) : IsName ("__temp" ++ Decimal.natText n) := by
  have hchars : "__temp" ++ Decimal.natText n =
      String.ofList ('_' :: ("_temp".toList ++ Decimal.toDigits n)) := by
    rw [← String.toList_inj]
    simp [Decimal.natText]
  have hword : ∀ d ∈ "_temp".toList, Text.isWordChar d = true :=
    List.all_eq_true.mp (by decide)
  have hdigit : ∀ d ∈ Decimal.toDigits n, Text.isWordChar d = true := by
    intro d hd
    rw [Text.isWordChar, Numeral.isDigit_of_mem_toDigits hd, Bool.or_true]
  rw [hchars]
  exact ⟨'_', _, rfl, by decide, List.forall_mem_append.mpr ⟨hword, hdigit⟩, ofWord_underscore _⟩

theorem gives_freshTemporary : Gives IsName freshTemporary := by
  intro n a m hrun
  cases hrun
  exact isName_temporary n

/-! ## Where expressions come from -/

/-- Tokens stand among others, and a value has ended in front of them or not. -/
def Among (tokens : List Token) (afterValue : Bool) (ts : List Token) : Prop :=
  ∃ front back, tokens = front ++ ts ++ back ∧ lastEndsValue front = afterValue

namespace Among

variable {tokens ts us : List Token} {afterValue : Bool} {t : Token}

theorem self (tokens : List Token) : Among tokens false tokens :=
  ⟨[], [], (List.append_nil _).symm, rfl⟩

theorem append_left (h : Among tokens afterValue (ts ++ us)) : Among tokens afterValue ts := by
  obtain ⟨front, back, rfl, hends⟩ := h
  exact ⟨front, us ++ back, by simp, hends⟩

theorem append_right (h : Among tokens afterValue (ts ++ us)) :
    ∃ afterValue', Among tokens afterValue' us := by
  obtain ⟨front, back, rfl, hends⟩ := h
  exact ⟨_, front ++ ts, back, by simp, rfl⟩

theorem tail (h : Among tokens afterValue (t :: ts)) : Among tokens t.lexeme.endsValue ts := by
  obtain ⟨front, back, rfl, hends⟩ := h
  refine ⟨front ++ [t], back, by simp, ?_⟩
  rw [lastEndsValue_append (List.cons_ne_nil _ _)]
  rfl

theorem behind_sign {s : Symbol} {t : Phrase.Sign s} (h : Among tokens afterValue (t.val :: ts))
    (hs : (Lexeme.symbol s).endsValue = false) : Among tokens false ts := by
  have hrest := h.tail
  rw [Phrase.lexeme_sign, hs] at hrest
  exact hrest

theorem behind_word {w : Keyword} {t : Phrase.Word w} (h : Among tokens afterValue (t.val :: ts))
    (hw : (Lexeme.keyword w).endsValue = false) : Among tokens false ts := by
  have hrest := h.tail
  rw [Phrase.lexeme_word, hw] at hrest
  exact hrest

theorem isInfix (h : Among tokens afterValue ts) : ts <:+: tokens := by
  obtain ⟨front, back, rfl, -⟩ := h
  exact ⟨front, back, rfl⟩

theorem subset (h : Among tokens afterValue ts) : ts ⊆ tokens := h.isInfix.subset

end Among

/-- What an expression is built from: a phrase behind a token that ends no value, or a phrase that
starts with a name; or nothing that is written. -/
inductive Expr.Source (tokens : List Token) : Expr → Prop where
  | phrase {d : Phrase.Expression} {e : Expr} {afterValue : Bool}
      (h : Among tokens afterValue d.tokens)
      (hstart : afterValue = true → Phrase.StartsWith Lexeme.isIdentifier d.tokens)
      (hb : d.built = .ok e) : Expr.Source tokens e
  | temporary {name : String} (h : IsName name) : Expr.Source tokens (.reference name)
  | always : Expr.Source tokens (.ofOperand (.primitive (.bool true)))

theorem Expr.Source.of_built {tokens : List Token} {d : Phrase.Expression} {e : Expr}
    (h : Among tokens false d.tokens) (hb : d.built = .ok e) : e.Source tokens :=
  .phrase h (fun hfalse => absurd hfalse Bool.false_ne_true) hb

namespace Phrase

open Grammar

variable {tokens : List Token}

/-! ## Arguments -/

theorem NamedArguments.source_built (d : NamedArguments) {afterValue : Bool}
    {args : List NamedArgument} (h : Among tokens afterValue d.tokens) (hb : d.built = .ok args) :
    ∀ arg ∈ args, arg.value.Source tokens := by
  induction d generalizing afterValue args with
  | last name assign value =>
    rw [NamedArguments.built] at hb
    obtain ⟨e, he, hb⟩ := bind_eq_ok.mp hb
    cases hb
    exact List.forall_mem_singleton.mpr (Expr.Source.of_built (h.tail.behind_sign rfl) he)
  | cons name assign value comma rest ih =>
    rw [NamedArguments.built] at hb
    obtain ⟨e, he, hb⟩ := bind_eq_ok.mp hb
    obtain ⟨others, hothers, hb⟩ := bind_eq_ok.mp hb
    cases hb
    have hvalue : Among tokens false (value.tokens ++ comma.val :: rest.tokens) :=
      h.tail.behind_sign rfl
    obtain ⟨_, hrest⟩ := hvalue.append_right
    exact List.forall_mem_cons.mpr
      ⟨Expr.Source.of_built hvalue.append_left he, ih hrest.tail hothers⟩

theorem source_callArguments {args : List NamedArgument} (h : ∀ arg ∈ args, arg.value.Source tokens)
    {pairs : List (String × Expr)} (hb : NamedArgument.callArguments args = .ok pairs) :
    ∀ pair ∈ pairs, pair.2.Source tokens := by
  rw [NamedArgument.callArguments] at hb
  split at hb
  · cases hb
  · cases hb
    exact List.forall_mem_map.mpr h

theorem NamedUpTo.source_built (d : NamedUpTo) {afterValue : Bool} {args : List NamedArgument}
    (h : Among tokens afterValue d.tokens) (hb : d.built = .ok args) :
    ∀ arg ∈ args, arg.value.Source tokens := by
  cases d with
  | mk args stop => exact args.source_built h.append_left hb

theorem NamedOrNone.source_built (d : NamedOrNone) {afterValue : Bool}
    {pairs : List (String × Expr)} (h : Among tokens afterValue d.tokens)
    (hb : d.built = .ok pairs) : ∀ pair ∈ pairs, pair.2.Source tokens := by
  cases d with
  | none stop =>
    cases hb
    exact List.forall_mem_nil _
  | some args =>
    obtain ⟨found, hfound, hb⟩ := bind_eq_ok.mp hb
    exact source_callArguments (args.source_built h hfound) hb

theorem source_loopHead {name : Tok .identifier} {items : Expression} {head : LoopHead}
    (h : Among tokens false items.tokens) (hb : loopHead name items = .ok head) :
    ∀ e ∈ head.expressions, e.Source tokens := by
  rw [loopHead] at hb
  obtain ⟨e, he, hb⟩ := bind_eq_ok.mp hb
  split at hb
  · cases hb
  · cases hb
    exact List.forall_mem_singleton.mpr (Expr.Source.of_built h he)

theorem gives_value {d : Expression} (h : Among tokens false d.tokens) :
    Gives (Expr.Source tokens) (liftM d.built : Build Expr) :=
  gives_lift fun _ he => Expr.Source.of_built h he

theorem gives_any {α : Type} (x : Build α) : Gives (fun _ => True) x :=
  fun _ _ _ _ => trivial

end Phrase

end Workflow
