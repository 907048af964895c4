import Workflow.Proofs.Layout.Alike

/-!
# Reading does not depend on positions

Token lists that are alike are read alike: with trees that are alike, or with faults that are
reported alike.
-/

namespace Workflow.Grammar

variable {α β : Type} {R : α → α → Prop} {stop stop' : Position} {s s' r r' : List Token}

/-- Readings agree in what they read and in what they leave. -/
abbrev Agrees (R : α → α → Prop) (x : Except ParseError (Read α s))
    (y : Except ParseError (Read α s')) : Prop :=
  Agree ParseError.Alike (fun a b => R a.value b.value ∧ Alikes a.rest b.rest) x y

/-- Readings, perhaps of nothing, agree in what they read and in what they leave. -/
abbrev AgreesSome (R : α → α → Prop) (x : Except ParseError (ReadSome α s))
    (y : Except ParseError (ReadSome α s')) : Prop :=
  Agree ParseError.Alike (fun a b => R a.value b.value ∧ Alikes a.rest b.rest) x y

theorem agrees_after {h : Shorter r s} {h' : Shorter r' s'} {x : Except ParseError (Read α r)}
    {y : Except ParseError (Read α r')} (hxy : Agrees R x y) :
    Agrees R (after h x) (after h' y) :=
  hxy.map fun _ _ hab => hab

theorem agrees_afterSome {h : Shorter r s} {h' : Shorter r' s'}
    {x : Except ParseError (ReadSome α r)} {y : Except ParseError (ReadSome α r')}
    (hxy : AgreesSome R x y) : Agrees R (afterSome h x) (afterSome h' y) :=
  hxy.map fun _ _ hab => hab

/-- Readings that agree go on with what they have read and left. -/
theorem agrees_bind {γ δ : Type} {S : γ → δ → Prop} {x : Except ParseError (Read α s)}
    {y : Except ParseError (Read α s')} {f : Read α s → Except ParseError γ}
    {g : Read α s' → Except ParseError δ} (hxy : Agrees R x y)
    (hfg : ∀ a a' r r' (h : Shorter r s) (h' : Shorter r' s'), R a a' → Alikes r r' →
      Agree ParseError.Alike S (f ⟨a, r, h⟩) (g ⟨a', r', h'⟩)) :
    Agree ParseError.Alike S (x >>= f) (y >>= g) :=
  hxy.bind fun a a' h => hfg a.value a'.value a.rest a'.rest a.shorter a'.shorter h.1 h.2

theorem unexpected_alike (expected : Expectation) (hs : Alikes s s') :
    (unexpected stop expected s).Alike (unexpected stop' expected s') := by
  cases hs with
  | nil => rfl
  | cons ht _ => simp [unexpected, ParseError.Alike, Report.ofParseError, Report.unplaced,
      Report.parse, ht.2]

/-- A token of a class is read from both lists or from neither. -/
theorem accept?_alike (k : Terminal) (hs : Alikes s s') :
    (accept? k s = none ∧ accept? k s' = none) ∨
      ∃ t t' r r' h h', accept? k s = some ⟨t, r, h⟩ ∧ accept? k s' = some ⟨t', r', h'⟩ ∧
        Token.Alike t t' ∧ Alikes r r' := by
  cases hs with
  | nil => exact .inl ⟨rfl, rfl⟩
  | @cons t u r r' ht hr =>
    cases hk : k.accepts t.lexeme with
    | false => exact .inl ⟨by simp [accept?, hk], by simp [accept?, ← ht.1, hk]⟩
    | true =>
      exact .inr ⟨t, u, r, r', shorter_cons t r, shorter_cons u r', by simp [accept?, hk],
        by simp [accept?, ← ht.1, hk], ht, hr⟩

theorem expect_alike (k : Terminal) (hs : Alikes s s') :
    Agrees Token.Alike (expect stop k s) (expect stop' k s') := by
  unfold expect
  obtain ⟨h, h'⟩ | ⟨t, t', r, r', _, _, h, h', ht, hr⟩ := accept?_alike k hs
  · rw [h, h']
    exact .error (unexpected_alike _ hs)
  · rw [h, h']
    exact .ok ⟨ht, hr⟩

/-! ## Expressions -/

theorem referenceNode_alike {p p' : Position} {parts parts' : List Node}
    (h : List.Forall₂ Node.Alike parts parts') :
    (referenceNode p parts).Alike (referenceNode p' parts') :=
  .mk (List.rel_map (fun _ _ hn => .node hn) h)

theorem isSubscripted_alike {parts parts' : List Node}
    (h : List.Forall₂ Node.Alike parts parts') : isSubscripted parts = isSubscripted parts' := by
  unfold isSubscripted
  induction h with
  | nil => rfl
  | cons hn _ ih => rw [List.any_cons, List.any_cons, ih, hn.has]

theorem nameNode_alike {p p' : Position} {parts parts' : List Node}
    (h : List.Forall₂ Node.Alike parts parts') : (nameNode p parts).Alike (nameNode p' parts') :=
  .mk (List.rel_flatMap h fun _ _ hn => List.rel_map (fun _ _ ht => .token ht) (hn.tokens _))

theorem argumentChild_alike {p p' : Position} {args args' : List Node}
    (h : List.Forall₂ Node.Alike args args') :
    List.Forall₂ Child.Alike (argumentChild p args) (argumentChild p' args') := by
  cases h with
  | nil => exact .nil
  | cons hn hrest =>
    exact .cons (.node (.mk (List.rel_map (fun _ _ hn => .node hn) (.cons hn hrest)))) .nil

mutual

-- Each reader is followed on both lists at once, with the measure by which it reads the first.
theorem expression_alike {s s' : List Token} (hs : Alikes s s') :
    Agrees Node.Alike (expression stop s) (expression stop' s') := by
  rw [expression, expression]
  refine agrees_bind (term_alike hs) ?_
  intro first first' r r' _ _ hfirst hr
  refine agrees_bind (agrees_afterSome (operations_alike hr)) ?_
  intro others others' q q' _ _ hothers hq
  exact .ok ⟨.mk (.cons (.node hfirst) hothers), hq⟩
termination_by 8 * s.length + 5
decreasing_by all_goals omega

theorem operations_alike {s s' : List Token} (hs : Alikes s s') :
    AgreesSome (List.Forall₂ Child.Alike) (operations stop s) (operations stop' s') := by
  rw [operations, operations]
  obtain ⟨h, h'⟩ | ⟨t, t', r, r', _, _, h, h', ht, hr⟩ := accept?_alike .binaryOperator hs
  · rw [h, h']
    exact .ok ⟨.nil, hs⟩
  · rw [h, h']
    refine agrees_bind (agrees_after (term_alike hr)) ?_
    intro next next' q q' _ _ hnext hq
    refine agrees_bind (agrees_afterSome (operations_alike hq)) ?_
    intro others others' p p' _ _ hothers hp
    exact .ok ⟨.cons (.token ht) (.cons (.node hnext) hothers), hp⟩
termination_by 8 * s.length
decreasing_by all_goals omega

theorem term_alike {s s' : List Token} (hs : Alikes s s') :
    Agrees Node.Alike (term stop s) (term stop' s') := by
  rw [term, term]
  obtain ⟨h, h'⟩ | ⟨t, t', r, r', _, _, h, h', ht, hr⟩ := accept?_alike .unaryOperator hs
  · rw [h, h']
    refine agrees_bind (operand_alike hs) ?_
    intro value value' q q' _ _ hvalue hq
    exact .ok ⟨.mk hvalue, hq⟩
  · rw [h, h']
    refine agrees_bind (agrees_after (operand_alike hr)) ?_
    intro value value' q q' _ _ hvalue hq
    exact .ok ⟨.mk (.cons (.token ht) hvalue), hq⟩
termination_by 8 * s.length + 4
decreasing_by all_goals omega

theorem operand_alike {s s' : List Token} (hs : Alikes s s') :
    Agrees (List.Forall₂ Child.Alike) (operand stop s) (operand stop' s') := by
  cases hs with
  | nil =>
    rw [operand, operand]
    exact .error (unexpected_alike _ .nil)
  | @cons t u r r' ht hr =>
    have : (t :: r).length = r.length + 1 := List.length_cons
    rw [operand, operand, ← ht.1]
    split
    · exact .ok ⟨.cons (.node (.mk (.cons (.token ht) .nil))) .nil, hr⟩
    · split
      · refine agrees_bind (agrees_after (argumentsUpTo_alike .rbracket hr)) ?_
        intro items items' q q' _ _ hitems hq
        exact .ok ⟨.cons (.node (.mk (List.rel_map (fun _ _ hn => .node hn) hitems))) .nil, hq⟩
      · refine agrees_bind (agrees_after (entriesUpTo_alike hr)) ?_
        intro children children' q q' _ _ hchildren hq
        exact .ok ⟨.cons (.node (.mk hchildren)) .nil, hq⟩
      · refine agrees_bind (agrees_after (expression_alike hr)) ?_
        intro inner inner' q q' _ _ hinner hq
        refine agrees_bind (agrees_after (expect_alike _ hq)) ?_
        intro _ _ p p' _ _ _ hp
        exact .ok ⟨.cons (.token ht) (.cons (.node hinner) .nil), hp⟩
      · exact .ok ⟨.cons (.token ht) .nil, hr⟩
      · refine agrees_bind (reference_alike (.cons ht hr)) ?_
        intro parts parts' behind behind' _ _ hparts hbehind
        obtain ⟨h, h'⟩ | ⟨_, _, inside, inside', _, _, h, h', _, hinside⟩ :=
          accept?_alike (.symbol .lparen) hbehind
        · simp only [h, h', after_none]
          exact .ok ⟨.cons (.node (referenceNode_alike hparts)) .nil, hbehind⟩
        · simp only [h, h', after_some, Read.after, ← isSubscripted_alike hparts]
          split
          · exact .error (unexpected_alike _ hbehind)
          · refine agrees_bind (agrees_after (argumentsUpTo_alike .rparen hinside)) ?_
            intro args args' q q' _ _ hargs hq
            exact .ok ⟨.cons (.node (.mk (.cons (.node (nameNode_alike hparts))
              (argumentChild_alike hargs)))) .nil, hq⟩
      · exact .error (unexpected_alike _ (.cons ht hr))
termination_by 8 * s.length + 3
decreasing_by all_goals omega

theorem reference_alike {s s' : List Token} (hs : Alikes s s') :
    Agrees (List.Forall₂ Node.Alike) (reference stop s) (reference stop' s') := by
  rw [reference, reference]
  refine agrees_bind (referencePart_alike hs) ?_
  intro part part' r r' _ _ hpart hr
  obtain ⟨h, h'⟩ | ⟨_, _, q, q', _, _, h, h', _, hq⟩ := accept?_alike (.symbol .dot) hr
  · simp only [h, h', after_none]
    exact .ok ⟨.cons hpart .nil, hr⟩
  · simp only [h, h', after_some, Read.after]
    refine agrees_bind (agrees_after (reference_alike hq)) ?_
    intro parts parts' p p' _ _ hparts hp
    exact .ok ⟨.cons hpart hparts, hp⟩
termination_by 8 * s.length + 2
decreasing_by all_goals omega

theorem referencePart_alike {s s' : List Token} (hs : Alikes s s') :
    Agrees Node.Alike (referencePart stop s) (referencePart stop' s') := by
  rw [referencePart, referencePart]
  refine agrees_bind (expect_alike _ hs) ?_
  intro name name' r r' _ _ hname hr
  refine agrees_bind (agrees_afterSome (subscripts_alike hr)) ?_
  intro found found' q q' _ _ hfound hq
  exact .ok ⟨.mk (.cons (.token hname) (List.rel_map (fun _ _ hn => .node hn) hfound)), hq⟩
termination_by 8 * s.length + 1
decreasing_by all_goals omega

theorem subscripts_alike {s s' : List Token} (hs : Alikes s s') :
    AgreesSome (List.Forall₂ Node.Alike) (subscripts stop s) (subscripts stop' s') := by
  rw [subscripts, subscripts]
  obtain ⟨h, h'⟩ | ⟨_, _, r, r', _, _, h, h', _, hr⟩ := accept?_alike (.symbol .lbracket) hs
  · rw [h, h']
    exact .ok ⟨.nil, hs⟩
  · rw [h, h']
    refine agrees_bind (agrees_after (expression_alike hr)) ?_
    intro first first' q q' _ _ hfirst hq
    refine agrees_bind (agrees_after (expect_alike _ hq)) ?_
    intro _ _ p p' _ _ _ hp
    refine agrees_bind (agrees_afterSome (subscripts_alike hp)) ?_
    intro others others' l l' _ _ hothers hl
    exact .ok ⟨.cons hfirst hothers, hl⟩
termination_by 8 * s.length
decreasing_by all_goals omega

theorem arguments_alike {s s' : List Token} (hs : Alikes s s') :
    Agrees (List.Forall₂ Node.Alike) (arguments stop s) (arguments stop' s') := by
  rw [arguments, arguments]
  refine agrees_bind (expression_alike hs) ?_
  intro first first' r r' _ _ hfirst hr
  obtain ⟨h, h'⟩ | ⟨_, _, q, q', _, _, h, h', _, hq⟩ := accept?_alike (.symbol .comma) hr
  · simp only [h, h', after_none]
    exact .ok ⟨.cons hfirst .nil, hr⟩
  · simp only [h, h', after_some, Read.after]
    refine agrees_bind (agrees_after (arguments_alike hq)) ?_
    intro others others' p p' _ _ hothers hp
    exact .ok ⟨.cons hfirst hothers, hp⟩
termination_by 8 * s.length + 6
decreasing_by all_goals omega

theorem argumentsUpTo_alike (close : Symbol) {s s' : List Token} (hs : Alikes s s') :
    Agrees (List.Forall₂ Node.Alike) (argumentsUpTo stop close s)
      (argumentsUpTo stop' close s') := by
  rw [argumentsUpTo, argumentsUpTo]
  obtain ⟨h, h'⟩ | ⟨_, _, r, r', _, _, h, h', _, hr⟩ := accept?_alike (.symbol close) hs
  · rw [h, h']
    refine agrees_bind (arguments_alike hs) ?_
    intro args args' q q' _ _ hargs hq
    refine agrees_bind (agrees_after (expect_alike _ hq)) ?_
    intro _ _ p p' _ _ _ hp
    exact .ok ⟨hargs, hp⟩
  · rw [h, h']
    exact .ok ⟨.nil, hr⟩
termination_by 8 * s.length + 7
decreasing_by all_goals omega

theorem entries_alike {s s' : List Token} (hs : Alikes s s') :
    Agrees (List.Forall₂ Child.Alike) (entries stop s) (entries stop' s') := by
  rw [entries, entries]
  refine agrees_bind (expect_alike _ hs) ?_
  intro key key' r r' _ _ hkey hr
  refine agrees_bind (agrees_after (expect_alike _ hr)) ?_
  intro _ _ q q' _ _ _ hq
  refine agrees_bind (agrees_after (expression_alike hq)) ?_
  intro value value' p p' _ _ hvalue hp
  obtain ⟨h, h'⟩ | ⟨_, _, l, l', _, _, h, h', _, hl⟩ := accept?_alike (.symbol .comma) hp
  · simp only [h, h', after_none]
    exact .ok ⟨.cons (.token hkey) (.cons (.node hvalue) .nil), hp⟩
  · simp only [h, h', after_some, Read.after]
    refine agrees_bind (agrees_after (entries_alike hl)) ?_
    intro others others' k k' _ _ hothers hk
    exact .ok ⟨.cons (.token hkey) (.cons (.node hvalue) hothers), hk⟩
termination_by 8 * s.length
decreasing_by all_goals omega

theorem entriesUpTo_alike {s s' : List Token} (hs : Alikes s s') :
    Agrees (List.Forall₂ Child.Alike) (entriesUpTo stop s) (entriesUpTo stop' s') := by
  rw [entriesUpTo, entriesUpTo]
  obtain ⟨h, h'⟩ | ⟨_, _, r, r', _, _, h, h', _, hr⟩ := accept?_alike (.symbol .rbrace) hs
  · rw [h, h']
    refine agrees_bind (entries_alike hs) ?_
    intro children children' q q' _ _ hchildren hq
    refine agrees_bind (agrees_after (expect_alike _ hq)) ?_
    intro _ _ p p' _ _ _ hp
    exact .ok ⟨hchildren, hp⟩
  · rw [h, h']
    exact .ok ⟨.nil, hr⟩
termination_by 8 * s.length + 1
decreasing_by all_goals omega

end

/-! ## Named arguments and calls -/

theorem namedEntries_alike {s s' : List Token} (hs : Alikes s s') :
    Agrees (List.Forall₂ Child.Alike) (namedEntries stop s) (namedEntries stop' s') := by
  rw [namedEntries, namedEntries]
  refine agrees_bind (expect_alike _ hs) ?_
  intro name name' r r' _ _ hname hr
  refine agrees_bind (agrees_after (expect_alike _ hr)) ?_
  intro _ _ q q' _ _ _ hq
  refine agrees_bind (agrees_after (expression_alike hq)) ?_
  intro value value' p p' _ _ hvalue hp
  obtain ⟨h, h'⟩ | ⟨_, _, l, l', _, _, h, h', _, hl⟩ := accept?_alike (.symbol .comma) hp
  · simp only [h, h', after_none]
    exact .ok ⟨.cons (.token hname) (.cons (.node hvalue) .nil), hp⟩
  · simp only [h, h', after_some, Read.after]
    refine agrees_bind (agrees_after (namedEntries_alike hl)) ?_
    intro others others' k k' _ _ hothers hk
    exact .ok ⟨.cons (.token hname) (.cons (.node hvalue) hothers), hk⟩
termination_by s.length
decreasing_by all_goals omega

theorem namedArgumentsUpTo_alike (hs : Alikes s s') :
    Agrees Child.Alike (namedArgumentsUpTo stop s) (namedArgumentsUpTo stop' s') := by
  rw [namedArgumentsUpTo, namedArgumentsUpTo, namedArguments, namedArguments]
  refine agrees_bind (R := Node.Alike) (agrees_bind (namedEntries_alike hs) ?_) ?_
  · intro children children' r r' _ _ hchildren hr
    exact .ok ⟨.mk hchildren, hr⟩
  · intro list list' r r' _ _ hlist hr
    refine agrees_bind (agrees_after (expect_alike _ hr)) ?_
    intro _ _ q q' _ _ _ hq
    exact .ok ⟨.node hlist, hq⟩

theorem namedOrNoArguments_alike (hs : Alikes s s') :
    Agrees (List.Forall₂ Child.Alike) (namedOrNoArguments stop s)
      (namedOrNoArguments stop' s') := by
  rw [namedOrNoArguments, namedOrNoArguments]
  obtain ⟨h, h'⟩ | ⟨_, _, r, r', _, _, h, h', _, hr⟩ := accept?_alike (.symbol .rparen) hs
  · rw [h, h']
    refine agrees_bind (namedArgumentsUpTo_alike hs) ?_
    intro child child' q q' _ _ hchild hq
    exact .ok ⟨.cons hchild .nil, hq⟩
  · rw [h, h']
    exact .ok ⟨.nil, hr⟩

theorem nameTokens_alike {s s' : List Token} (hs : Alikes s s') :
    Agrees Alikes (nameTokens stop s) (nameTokens stop' s') := by
  rw [nameTokens, nameTokens]
  refine agrees_bind (expect_alike _ hs) ?_
  intro first first' r r' _ _ hfirst hr
  obtain ⟨h, h'⟩ | ⟨_, _, q, q', _, _, h, h', _, hq⟩ := accept?_alike (.symbol .dot) hr
  · simp only [h, h', after_none]
    exact .ok ⟨.cons hfirst .nil, hr⟩
  · simp only [h, h', after_some, Read.after]
    refine agrees_bind (agrees_after (nameTokens_alike hq)) ?_
    intro others others' p p' _ _ hothers hp
    exact .ok ⟨.cons hfirst hothers, hp⟩
termination_by s.length
decreasing_by all_goals omega

theorem namedCall_alike (hs : Alikes s s') :
    Agrees Node.Alike (namedCall stop s) (namedCall stop' s') := by
  rw [namedCall, namedCall]
  refine agrees_bind (nameTokens_alike hs) ?_
  intro names names' r r' _ _ hnames hr
  refine agrees_bind (agrees_after (expect_alike _ hr)) ?_
  intro _ _ q q' _ _ _ hq
  refine agrees_bind (agrees_after (namedOrNoArguments_alike hq)) ?_
  intro args args' p p' _ _ hargs hp
  obtain ⟨h, h'⟩ | ⟨_, _, _, _, _, _, h, h', _⟩ := accept?_alike .binaryOperator hp
  · simp only [h, h', Option.isSome_none, Bool.false_eq_true, if_false]
    exact .ok ⟨.mk (.cons (.node (.mk (List.rel_map (fun _ _ ht => .token ht) hnames))) hargs),
      hp⟩
  · simp only [h, h', Option.isSome_some, if_true]
    exact .error (unexpected_alike _ hp)

theorem namedArgumentAhead_alike (hs : Alikes s s') :
    namedArgumentAhead s = namedArgumentAhead s' := by
  cases hs with
  | nil => rfl
  | cons ht hr =>
    cases hr with
    | nil => rfl
    | cons hu _ => simp only [namedArgumentAhead, ht.1, hu.1]

theorem namedOrNoArgumentsAhead_alike (hs : Alikes s s') :
    namedOrNoArgumentsAhead s = namedOrNoArgumentsAhead s' := by
  cases hs with
  | nil => rfl
  | cons ht hr =>
    rw [namedOrNoArgumentsAhead, namedOrNoArgumentsAhead, ht.1,
      namedArgumentAhead_alike (.cons ht hr)]
    cases hr with
    | nil => rfl
    | cons hu _ => simp only [List.head?_cons, Option.any_some, hu.1]

theorem namedCallAhead_alike {s s' : List Token} (hs : Alikes s s') :
    namedCallAhead s = namedCallAhead s' := by
  cases hs with
  | nil => rfl
  | cons ht hr =>
    cases hr with
    | nil => rw [namedCallAhead, namedCallAhead] <;> simp
    | cons hu hrest =>
      rw [namedCallAhead, namedCallAhead, ht.1, hu.1, namedCallAhead_alike hrest,
        namedOrNoArgumentsAhead_alike hrest]
termination_by s.length

theorem callArguments_alike (hs : Alikes s s') :
    Agrees (List.Forall₂ Child.Alike) (callArguments stop s) (callArguments stop' s') := by
  rw [callArguments, callArguments, ← namedArgumentAhead_alike hs]
  split
  · refine agrees_bind (namedArgumentsUpTo_alike hs) ?_
    intro child child' r r' _ _ hchild hr
    exact .ok ⟨.cons hchild .nil, hr⟩
  · refine agrees_bind (argumentsUpTo_alike .rparen hs) ?_
    intro args args' r r' _ _ hargs hr
    exact .ok ⟨argumentChild_alike hargs, hr⟩

theorem callOrAssignment_alike (hs : Alikes s s') :
    Agrees Node.Alike (callOrAssignment stop s) (callOrAssignment stop' s') := by
  rw [callOrAssignment, callOrAssignment]
  refine agrees_bind (reference_alike hs) ?_
  intro parts parts' behind behind' _ _ hparts hbehind
  obtain ⟨h, h'⟩ | ⟨assign, assign', r, r', _, _, h, h', hassign, hr⟩ :=
    accept?_alike (.symbol .assign) hbehind
  · simp only [h, h', after_none]
    obtain ⟨h, h'⟩ | ⟨_, _, r, r', _, _, h, h', _, hr⟩ :=
      accept?_alike (.symbol .lparen) hbehind
    · simp only [h, h', after_none]
      exact .error (unexpected_alike _ hbehind)
    · simp only [h, h', after_some, Read.after, ← isSubscripted_alike hparts]
      split
      · exact .error (unexpected_alike _ hbehind)
      · refine agrees_bind (agrees_after (callArguments_alike hr)) ?_
        intro args args' q q' _ _ hargs hq
        exact .ok ⟨.mk (.cons (.node (nameNode_alike hparts)) hargs), hq⟩
  · simp only [h, h', after_some, Read.after, ← namedCallAhead_alike hr]
    split
    · refine agrees_bind (agrees_after (namedCall_alike hr)) ?_
      intro call call' q q' _ _ hcall hq
      exact .ok ⟨.mk (.cons (.node (referenceNode_alike hparts)) (.cons (.token hassign)
        (.cons (.node hcall) .nil))), hq⟩
    · refine agrees_bind (agrees_after (expression_alike hr)) ?_
      intro value value' q q' _ _ hvalue hq
      exact .ok ⟨.mk (.cons (.node (referenceNode_alike hparts)) (.cons (.token hassign)
        (.cons (.node hvalue) .nil))), hq⟩

/-! ## Statements -/

theorem clauseArguments_alike (hs : Alikes s s') :
    Agrees Child.Alike (clauseArguments stop s) (clauseArguments stop' s') := by
  rw [clauseArguments, clauseArguments]
  refine agrees_bind (expect_alike _ hs) ?_
  intro _ _ r r' _ _ _ hr
  exact agrees_after (namedArgumentsUpTo_alike hr)

theorem parallelArguments_alike (hs : Alikes s s') :
    AgreesSome (List.Forall₂ Child.Alike) (parallelArguments stop s)
      (parallelArguments stop' s') := by
  rw [parallelArguments, parallelArguments]
  obtain ⟨h, h'⟩ | ⟨_, _, _, _, _, _, h, h', _⟩ := accept?_alike (.symbol .lparen) hs
  · simp only [h, h', Option.isSome_none, Bool.false_eq_true, if_false]
    exact .ok ⟨.nil, hs⟩
  · simp only [h, h', Option.isSome_some, if_true]
    refine agrees_bind (clauseArguments_alike hs) ?_
    intro child child' r r' _ _ hchild hr
    exact .ok ⟨.cons hchild .nil, hr⟩

theorem retryClause_alike (hs : Alikes s s') :
    AgreesSome (List.Forall₂ Child.Alike) (retryClause stop s) (retryClause stop' s') := by
  rw [retryClause, retryClause]
  obtain ⟨h, h'⟩ | ⟨retry, retry', r, r', _, _, h, h', hretry, hr⟩ :=
    accept?_alike (.keyword .retry) hs
  · rw [h, h']
    exact .ok ⟨.nil, hs⟩
  · rw [h, h']
    refine agrees_bind (agrees_after (clauseArguments_alike hr)) ?_
    intro child child' q q' _ _ hchild hq
    exact .ok ⟨.cons (.token hretry) (.cons hchild .nil), hq⟩

theorem caughtName_alike (hs : Alikes s s') :
    Agrees Token.Alike (caughtName stop s) (caughtName stop' s') := by
  rw [caughtName, caughtName]
  refine agrees_bind (expect_alike _ hs) ?_
  intro _ _ r r' _ _ _ hr
  refine agrees_bind (agrees_after (expect_alike _ hr)) ?_
  intro name name' q q' _ _ hname hq
  refine agrees_bind (agrees_after (expect_alike _ hq)) ?_
  intro _ _ p p' _ _ _ hp
  exact .ok ⟨hname, hp⟩

mutual

theorem statements_alike {s s' : List Token} (hs : Alikes s s') :
    AgreesSome (List.Forall₂ Node.Alike) (statements stop s) (statements stop' s') := by
  have hstop : (s.isEmpty || (accept? (.symbol .rbrace) s).isSome) =
      (s'.isEmpty || (accept? (.symbol .rbrace) s').isSome) := by
    obtain ⟨h, h'⟩ | ⟨_, _, _, _, _, _, h, h', _⟩ := accept?_alike (.symbol .rbrace) hs
    · rw [h, h']
      cases hs <;> rfl
    · rw [h, h', Option.isSome_some, Option.isSome_some, Bool.or_true, Bool.or_true]
  rw [statements, statements, ← hstop]
  split
  · exact .ok ⟨.nil, hs⟩
  · refine agrees_bind (statement_alike hs) ?_
    intro first first' r r' _ _ hfirst hr
    refine agrees_bind (agrees_afterSome (statements_alike hr)) ?_
    intro others others' q q' _ _ hothers hq
    exact .ok ⟨.cons hfirst hothers, hq⟩
termination_by 4 * s.length + 3
decreasing_by all_goals omega

theorem block_alike {s s' : List Token} (hs : Alikes s s') :
    Agrees Node.Alike (block stop s) (block stop' s') := by
  rw [block, block]
  refine agrees_bind (expect_alike _ hs) ?_
  intro _ _ inside inside' _ _ _ hinside
  refine agrees_bind (agrees_afterSome (statements_alike hinside)) ?_
  intro found found' r r' _ _ hfound hr
  refine agrees_bind (agrees_after (expect_alike _ hr)) ?_
  intro _ _ q q' _ _ _ hq
  exact .ok ⟨.mk (List.rel_map (fun _ _ hn => .node hn) hfound), hq⟩
termination_by 4 * s.length
decreasing_by all_goals omega

theorem statement_alike {s s' : List Token} (hs : Alikes s s') :
    Agrees Node.Alike (statement stop s) (statement stop' s') := by
  cases hs with
  | nil =>
    rw [statement, statement]
    exact .error (unexpected_alike _ .nil)
  | @cons t t' r r' ht hr =>
    have : (t :: r).length = r.length + 1 := List.length_cons
    rw [statement, statement, ← ht.1]
    split
    · exact callOrAssignment_alike (.cons ht hr)
    · refine agrees_bind (agrees_after (condition_alike hr)) ?_
      intro first first' q q' _ _ hfirst hq
      refine agrees_bind (agrees_afterSome (elseClauses_alike hq)) ?_
      intro others others' p p' _ _ hothers hp
      exact .ok ⟨.mk (.cons (.token ht) (List.rel_append hfirst hothers)), hp⟩
    · exact agrees_after (loop_alike ht hr)
    · refine agrees_bind (agrees_afterSome (parallelArguments_alike hr)) ?_
      intro args args' q q' _ _ hargs hq
      refine agrees_bind (agrees_after (parallelBody_alike hq)) ?_
      intro body body' p p' _ _ hbody hp
      exact .ok ⟨.mk (.cons (.token ht) (List.rel_append hargs hbody)), hp⟩
    · refine agrees_bind (agrees_after (block_alike hr)) ?_
      intro body body' q q' _ _ hbody hq
      refine agrees_bind (agrees_afterSome (retryClause_alike hq)) ?_
      intro retry retry' p p' _ _ hretry hp
      refine agrees_bind (agrees_afterSome (catchClause_alike hp)) ?_
      intro handler handler' l l' _ _ hhandler hl
      have hempty : (retry.isEmpty && handler.isEmpty) =
          (retry'.isEmpty && handler'.isEmpty) := by
        cases hretry <;> cases hhandler <;> rfl
      simp only [← hempty]
      split
      · exact .error rfl
      · exact .ok ⟨.mk (.cons (.token ht) (.cons (.node hbody)
          (List.rel_append hretry hhandler))), hl⟩
    · refine agrees_bind (agrees_after (expression_alike hr)) ?_
      intro value value' q q' _ _ hvalue hq
      exact .ok ⟨.mk (.cons (.token ht) (.cons (.node hvalue) .nil)), hq⟩
    · exact .ok ⟨.mk (.cons (.token ht) .nil), hr⟩
    · exact .ok ⟨.mk (.cons (.token ht) .nil), hr⟩
    · have hnext : r.head?.any (·.lexeme.startsExpression) =
          r'.head?.any (·.lexeme.startsExpression) := by
        cases hr with
        | nil => rfl
        | cons hu _ => simp only [List.head?_cons, Option.any_some, hu.1]
      rw [← hnext]
      split
      · refine agrees_bind (agrees_after (expression_alike hr)) ?_
        intro value value' q q' _ _ hvalue hq
        exact .ok ⟨.mk (.cons (.token ht) (.cons (.node hvalue) .nil)), hq⟩
      · exact .ok ⟨.mk (.cons (.token ht) .nil), hr⟩
    · exact .error (unexpected_alike _ (.cons ht hr))
termination_by 4 * s.length + 2
decreasing_by all_goals omega

theorem condition_alike {s s' : List Token} (hs : Alikes s s') :
    Agrees (List.Forall₂ Child.Alike) (condition stop s) (condition stop' s') := by
  rw [condition, condition]
  refine agrees_bind (expect_alike _ hs) ?_
  intro _ _ r r' _ _ _ hr
  refine agrees_bind (agrees_after (expression_alike hr)) ?_
  intro test test' q q' _ _ htest hq
  refine agrees_bind (agrees_after (expect_alike _ hq)) ?_
  intro _ _ p p' _ _ _ hp
  refine agrees_bind (agrees_after (block_alike hp)) ?_
  intro body body' l l' _ _ hbody hl
  exact .ok ⟨.cons (.node htest) (.cons (.node hbody) .nil), hl⟩
termination_by 4 * s.length + 1
decreasing_by all_goals omega

theorem elseClauses_alike {s s' : List Token} (hs : Alikes s s') :
    AgreesSome (List.Forall₂ Child.Alike) (elseClauses stop s) (elseClauses stop' s') := by
  rw [elseClauses, elseClauses]
  obtain ⟨h, h'⟩ | ⟨else_, else_', behind, behind', _, _, h, h', helse, hbehind⟩ :=
    accept?_alike (.keyword .else) hs
  · rw [h, h']
    exact .ok ⟨.nil, hs⟩
  · rw [h, h']
    obtain ⟨h, h'⟩ | ⟨if_, if_', r, r', _, _, h, h', hif, hr⟩ :=
      accept?_alike (.keyword .if) hbehind
    · simp only [h, h', after_none]
      refine agrees_bind (agrees_after (block_alike hbehind)) ?_
      intro body body' q q' _ _ hbody hq
      exact .ok ⟨.cons (.token helse) (.cons (.node hbody) .nil), hq⟩
    · simp only [h, h', after_some, Read.after]
      refine agrees_bind (agrees_after (condition_alike hr)) ?_
      intro first first' q q' _ _ hfirst hq
      refine agrees_bind (agrees_afterSome (elseClauses_alike hq)) ?_
      intro others others' p p' _ _ hothers hp
      exact .ok ⟨.cons (.token helse) (.cons (.token hif) (List.rel_append hfirst hothers)), hp⟩
termination_by 4 * s.length
decreasing_by all_goals omega

theorem loop_alike {for_ for_' : Token} (hfor : for_.Alike for_') {s s' : List Token}
    (hs : Alikes s s') : Agrees Node.Alike (loop stop for_ s) (loop stop' for_' s') := by
  rw [loop, loop]
  refine agrees_bind (expect_alike _ hs) ?_
  intro _ _ r r' _ _ _ hr
  refine agrees_bind (agrees_after (expect_alike _ hr)) ?_
  intro name name' q q' _ _ hname hq
  refine agrees_bind (agrees_after (expect_alike _ hq)) ?_
  intro _ _ p p' _ _ _ hp
  refine agrees_bind (agrees_after (expression_alike hp)) ?_
  intro items items' l l' _ _ hitems hl
  refine agrees_bind (agrees_after (expect_alike _ hl)) ?_
  intro _ _ k k' _ _ _ hk
  refine agrees_bind (agrees_after (block_alike hk)) ?_
  intro body body' j j' _ _ hbody hj
  exact .ok ⟨.mk (.cons (.token hfor) (.cons (.token hname) (.cons (.node hitems)
    (.cons (.node hbody) .nil)))), hj⟩
termination_by 4 * s.length + 1
decreasing_by all_goals omega

theorem parallelBody_alike {s s' : List Token} (hs : Alikes s s') :
    Agrees (List.Forall₂ Child.Alike) (parallelBody stop s) (parallelBody stop' s') := by
  rw [parallelBody, parallelBody]
  obtain ⟨h, h'⟩ | ⟨for_, for_', r, r', _, _, h, h', hfor, hr⟩ :=
    accept?_alike (.keyword .for) hs
  · rw [h, h']
    obtain ⟨h, h'⟩ | ⟨branch, branch', r, r', _, _, h, h', hbranch, hr⟩ :=
      accept?_alike (.keyword .branch) hs
    · simp only [h, h']
      exact .error (unexpected_alike _ hs)
    · simp only [h, h']
      refine agrees_bind (agrees_after (block_alike hr)) ?_
      intro body body' q q' _ _ hbody hq
      refine agrees_bind (agrees_afterSome (branches_alike hq)) ?_
      intro others others' p p' _ _ hothers hp
      exact .ok ⟨.cons (.token hbranch) (.cons (.node hbody) hothers), hp⟩
  · rw [h, h']
    refine agrees_bind (agrees_after (loop_alike hfor hr)) ?_
    intro node node' q q' _ _ hnode hq
    exact .ok ⟨.cons (.node hnode) .nil, hq⟩
termination_by 4 * s.length
decreasing_by all_goals omega

theorem branches_alike {s s' : List Token} (hs : Alikes s s') :
    AgreesSome (List.Forall₂ Child.Alike) (branches stop s) (branches stop' s') := by
  rw [branches, branches]
  obtain ⟨h, h'⟩ | ⟨branch, branch', r, r', _, _, h, h', hbranch, hr⟩ :=
    accept?_alike (.keyword .branch) hs
  · rw [h, h']
    exact .ok ⟨.nil, hs⟩
  · rw [h, h']
    refine agrees_bind (agrees_after (block_alike hr)) ?_
    intro body body' q q' _ _ hbody hq
    refine agrees_bind (agrees_afterSome (branches_alike hq)) ?_
    intro others others' p p' _ _ hothers hp
    exact .ok ⟨.cons (.token hbranch) (.cons (.node hbody) hothers), hp⟩
termination_by 4 * s.length
decreasing_by all_goals omega

theorem catchClause_alike {s s' : List Token} (hs : Alikes s s') :
    AgreesSome (List.Forall₂ Child.Alike) (catchClause stop s) (catchClause stop' s') := by
  rw [catchClause, catchClause]
  obtain ⟨h, h'⟩ | ⟨catch_, catch_', r, r', _, _, h, h', hcatch, hr⟩ :=
    accept?_alike (.keyword .catch) hs
  · rw [h, h']
    exact .ok ⟨.nil, hs⟩
  · rw [h, h']
    refine agrees_bind (agrees_after (caughtName_alike hr)) ?_
    intro name name' q q' _ _ hname hq
    refine agrees_bind (agrees_after (block_alike hq)) ?_
    intro body body' p p' _ _ hbody hp
    exact .ok ⟨.cons (.token hcatch) (.cons (.token hname) (.cons (.node hbody) .nil)), hp⟩
termination_by 4 * s.length
decreasing_by all_goals omega

end

/-! ## Programs -/

theorem parameter_alike (hs : Alikes s s') :
    Agrees Node.Alike (parameter stop s) (parameter stop' s') := by
  rw [parameter, parameter]
  refine agrees_bind (expect_alike _ hs) ?_
  intro name name' r r' _ _ hname hr
  obtain ⟨h, h'⟩ | ⟨_, _, q, q', _, _, h, h', _, hq⟩ := accept?_alike (.symbol .assign) hr
  · simp only [h, h', after_none]
    exact .ok ⟨.mk (.cons (.token hname) .nil), hr⟩
  · simp only [h, h', after_some, Read.after]
    refine agrees_bind (agrees_after (expect_alike _ hq)) ?_
    intro value value' p p' _ _ hvalue hp
    exact .ok ⟨.mk (.cons (.token hname) (.cons (.node (.mk (.cons (.token hvalue) .nil)))
      .nil)), hp⟩

theorem parameters_alike {s s' : List Token} (hs : Alikes s s') :
    Agrees (List.Forall₂ Node.Alike) (parameters stop s) (parameters stop' s') := by
  rw [parameters, parameters]
  refine agrees_bind (parameter_alike hs) ?_
  intro first first' r r' _ _ hfirst hr
  obtain ⟨h, h'⟩ | ⟨_, _, q, q', _, _, h, h', _, hq⟩ := accept?_alike (.symbol .comma) hr
  · simp only [h, h', after_none]
    exact .ok ⟨.cons hfirst .nil, hr⟩
  · simp only [h, h', after_some, Read.after]
    refine agrees_bind (agrees_after (parameters_alike hq)) ?_
    intro others others' p p' _ _ hothers hp
    exact .ok ⟨.cons hfirst hothers, hp⟩
termination_by s.length
decreasing_by all_goals omega

theorem parameterList_alike (hs : Alikes s s') :
    Agrees Node.Alike (parameterList stop s) (parameterList stop' s') := by
  rw [parameterList, parameterList]
  obtain ⟨h, h'⟩ | ⟨_, _, r, r', _, _, h, h', _, hr⟩ := accept?_alike (.symbol .rparen) hs
  · rw [h, h']
    refine agrees_bind (parameters_alike hs) ?_
    intro found found' q q' _ _ hfound hq
    refine agrees_bind (agrees_after (expect_alike _ hq)) ?_
    intro _ _ p p' _ _ _ hp
    exact .ok ⟨.mk (List.rel_map (fun _ _ hn => .node hn) hfound), hp⟩
  · rw [h, h']
    exact .ok ⟨.mk .nil, hr⟩

theorem definition_alike (hs : Alikes s s') :
    Agrees Node.Alike (definition stop s) (definition stop' s') := by
  rw [definition, definition]
  refine agrees_bind (expect_alike _ hs) ?_
  intro workflow workflow' r r' _ _ hworkflow hr
  refine agrees_bind (agrees_after (expect_alike _ hr)) ?_
  intro name name' q q' _ _ hname hq
  refine agrees_bind (agrees_after (expect_alike _ hq)) ?_
  intro _ _ p p' _ _ _ hp
  refine agrees_bind (agrees_after (parameterList_alike hp)) ?_
  intro list list' l l' _ _ hlist hl
  refine agrees_bind (agrees_after (block_alike hl)) ?_
  intro body body' k k' _ _ hbody hk
  exact .ok ⟨.mk (.cons (.token hworkflow) (.cons (.token hname) (.cons (.node hlist)
    (.cons (.node hbody) .nil)))), hk⟩

theorem definitions_alike {s s' : List Token} (hs : Alikes s s') :
    Agree ParseError.Alike (List.Forall₂ Node.Alike) (definitions stop s)
      (definitions stop' s') := by
  have hempty : s.isEmpty = s'.isEmpty := by cases hs <;> rfl
  rw [definitions, definitions, ← hempty]
  split
  · exact .ok .nil
  · refine agrees_bind (definition_alike hs) ?_
    intro first first' r r' _ _ hfirst hr
    refine (definitions_alike hr).bind fun others others' hothers => ?_
    exact .ok (.cons hfirst hothers)
termination_by s.length
decreasing_by all_goals omega

theorem getLast?_alike (hs : Alikes s s') :
    (s.getLast? = none ∧ s'.getLast? = none) ∨
      ∃ t t', s.getLast? = some t ∧ s'.getLast? = some t' ∧ Token.Alike t t' := by
  rw [← List.head?_reverse, ← List.head?_reverse]
  exact head?_alike (List.rel_reverse hs)

theorem takeWhile_alike (hs : Alikes s s') :
    Alikes (s.takeWhile (·.lexeme ≠ .endOfInput)) (s'.takeWhile (·.lexeme ≠ .endOfInput)) := by
  induction hs with
  | nil => exact .nil
  | cons ht _ ih =>
    rw [List.takeWhile_cons, List.takeWhile_cons, ht.1]
    split
    · exact .cons ht ih
    · exact .nil

/-- Token lists that are alike have trees that are alike, or neither has one. -/
theorem ofTokens_alike (hs : Alikes s s') :
    Agree ParseError.Alike Node.Alike (Node.ofTokens s) (Node.ofTokens s') := by
  unfold Node.ofTokens
  obtain ⟨h, h'⟩ | ⟨last, last', h, h', hlast⟩ := getLast?_alike hs
  · rw [h, h']
    exact .error rfl
  · rw [h, h']
    simp only [← hlast.1]
    split
    · exact .error rfl
    · refine (definitions_alike (takeWhile_alike hs)).bind fun found found' hfound => ?_
      exact .ok (.mk (List.rel_map (fun _ _ hn => .node hn) hfound))

end Workflow.Grammar
