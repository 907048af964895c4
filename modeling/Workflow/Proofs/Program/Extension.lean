import Workflow.Proofs.Document.References
import Workflow.Proofs.Grammar.Language
import Workflow.Proofs.Token.Continuation

/-!
# Texts with more definitions

A text that is compiled on its own is compiled in the same way in front of more definitions on new
lines. Temporaries and names of steps are numbered in the order of the text, so that what follows
changes none of those before it, and the document of the longer text starts with the fields of the
shorter one.
-/

namespace Workflow

/-- The definitions that are read from some tokens are read first with more tokens behind. -/
theorem nodes_extend_of_ofTokens {w more : List Token} {eof : Token} {short long : Node}
    (hw : ∀ t ∈ w, t.lexeme ≠ .endOfInput) (heof : eof.lexeme = .endOfInput)
    (hshort : Node.ofTokens (w ++ [eof]) = .ok short)
    (hlong : Node.ofTokens (w ++ more) = .ok long) :
    short.nodes .subworkflowDefinition <+: long.nodes .subworkflowDefinition := by
  have hall : ∀ t ∈ w, decide (t.lexeme ≠ .endOfInput) = true :=
    fun t ht => decide_eq_true (hw t ht)
  obtain ⟨p, hp, rfl, rfl⟩ := (ofTokens_eq_ok_iff hw heof).mp hshort
  obtain ⟨q, stop, hq, rfl, htokens⟩ := exists_program_of_ofTokens hlong
  rw [List.takeWhile_append_of_pos hall] at htokens
  have hread : Grammar.definitions stop q.tokens = _ := q.definitions_tokens hq
  rw [htokens, p.definitions_tokens_append hp] at hread
  obtain ⟨others, _, hothers⟩ := map_eq_ok.mp hread
  rw [p.nodes_node, q.nodes_node]
  exact ⟨others, hothers⟩

/-- Definitions are built with the same temporaries whatever stands behind them. -/
theorem Subworkflow.ofNodes_extends {ns ms : List Node} {n k l : Nat} {short long : Program Unit}
    (hshort : Subworkflow.ofNodes ns n = .ok (short, k))
    (hlong : Subworkflow.ofNodes (ns ++ ms) n = .ok (long, l)) : short <+: long := by
  induction ns generalizing n short long with
  | nil =>
    cases hshort
    exact List.nil_prefix
  | cons node rest ih =>
    rw [Subworkflow.ofNodes] at hshort
    rw [List.cons_append, Subworkflow.ofNodes] at hlong
    obtain ⟨⟨w, m⟩, hw, hshort⟩ := bind_eq_ok.mp hshort
    obtain ⟨⟨w', m'⟩, hw', hlong⟩ := bind_eq_ok.mp hlong
    cases hw.symm.trans hw'
    obtain ⟨⟨others, _⟩, hothers, hshort⟩ := bind_eq_ok.mp hshort
    obtain ⟨⟨others', _⟩, hothers', hlong⟩ := bind_eq_ok.mp hlong
    cases hshort
    cases hlong
    exact List.cons_prefix_cons.mpr ⟨rfl, ih hothers hothers'⟩

theorem ofNodes_of_ofTree {tree : Node} {program : Program Unit}
    (h : Program.ofTree tree = .ok program) :
    ∃ k, Subworkflow.ofNodes (tree.nodes .subworkflowDefinition) 0 = .ok (program, k) := by
  rw [Program.ofTree] at h
  obtain ⟨_, _, h⟩ := bind_eq_ok.mp h
  obtain ⟨⟨found, k⟩, hfound, h⟩ := bind_eq_ok.mp h
  cases h
  exact ⟨k, hfound⟩

/-- The program of a text is a part of the program of a longer text. -/
theorem build_extends {source more : String} {short long : Program Unit}
    (hshort : build source = .ok short) (hlong : build (source ++ "\n" ++ more) = .ok long) :
    short <+: long := by
  obtain ⟨tree, hparse, hbuild⟩ := bind_eq_ok.mp hshort
  obtain ⟨tokens, htokens, hparse⟩ := bind_eq_ok.mp hparse
  obtain ⟨tree', hparse', hbuild'⟩ := bind_eq_ok.mp hlong
  obtain ⟨tokens', htokens', hparse'⟩ := bind_eq_ok.mp hparse'
  have hchars : (source ++ "\n" ++ more).toList = source.toList ++ '\n' :: more.toList := by simp
  have hread' : Token.ofChars false .start (source ++ "\n" ++ more).toList = .ok tokens' :=
    mapError_eq_ok.mp htokens'
  obtain ⟨w, stop, afterValue, q, rfl, hw, hread⟩ :=
    Token.ofChars_newline (mapError_eq_ok.mp htokens) more.toList
  rw [hchars, hread] at hread'
  obtain ⟨others, _, rfl⟩ := map_eq_ok.mp hread'
  obtain ⟨rest, hnodes⟩ := nodes_extend_of_ofTokens hw rfl (mapError_eq_ok.mp hparse)
    (mapError_eq_ok.mp hparse')
  obtain ⟨k, hofNodes⟩ := ofNodes_of_ofTree (mapError_eq_ok.mp hbuild)
  obtain ⟨l, hofNodes'⟩ := ofNodes_of_ofTree (mapError_eq_ok.mp hbuild')
  rw [← hnodes] at hofNodes'
  exact Subworkflow.ofNodes_extends hofNodes hofNodes'

/-- Subworkflows are named with numbers that count on from those in front of them. -/
theorem Subworkflow.namedAll_append (program others : Program Unit) (c : Counters) :
    ((Subworkflow.namedAll (program ++ others)).run c).1 =
      ((Subworkflow.namedAll program).run c).1 ++
        ((Subworkflow.namedAll others).run ((Subworkflow.namedAll program).run c).2).1 := by
  induction program generalizing c with
  | nil => rfl
  | cons w rest ih =>
    exact congrArg (⟨w.name, w.params, ((Step.namedAll w.steps).run c).1⟩ :: ·)
      (ih ((Step.namedAll w.steps).run c).2)

theorem Program.named_extends {short long : Program Unit} (h : short <+: long) :
    short.named <+: long.named := by
  obtain ⟨others, rfl⟩ := h
  exact ⟨_, (Subworkflow.namedAll_append short others .zero).symm⟩

/-- Where the names of a program differ, its document starts with the documents of its parts. -/
theorem Program.fields_extend {short long : Program String} (h : short <+: long)
    (hnames : (long.map (·.name)).Nodup) :
    short.toDocument.fields <+: long.toDocument.fields := by
  have hshort : (short.map (·.name)).Nodup := hnames.sublist (h.map _).sublist
  rw [Program.fields_toDocument hnames, Program.fields_toDocument hshort]
  exact h.map _

/-- The document of a text is an ordered part of the document of a longer text in which no two
subworkflows share a name. -/
theorem compile_extends {disabled disabled' : List Check} {source more : String}
    {short long : Document} (hnames : Check.subworkflowNames ∉ disabled')
    (hshort : compile disabled source = .ok short)
    (hlong : compile disabled' (source ++ "\n" ++ more) = .ok long) :
    ∃ fields others, short = .object fields ∧ long = .object (fields ++ others) := by
  obtain ⟨program, hbuild, _, rfl⟩ := exists_program_of_compile hshort
  obtain ⟨program', hbuild', hvalid, rfl⟩ := exists_program_of_compile hlong
  have hnodup : (program'.named.map (·.name)).Nodup :=
    repeatedNames_eq_nil_iff.mp (List.map_eq_nil_iff.mp (validate_eq_ok_iff.mp hvalid _ hnames))
  obtain ⟨others, hfields⟩ :=
    Program.fields_extend (Program.named_extends (build_extends hbuild hbuild')) hnodup
  exact ⟨_, others, rfl, congrArg Document.object hfields.symm⟩

/-- A text that ends in a comment without a line feed, and two texts that each need a temporary. -/
theorem compile_extends_sample : ∃ short long fields others,
    compile [.callArguments] "workflow v() \x7b x[0] = f.g() \x7d // end" = .ok short ∧
      compile [] ("workflow v() \x7b x[0] = f.g() \x7d // end" ++ "\n" ++
        "workflow w() \x7b x[1] = f.g() \x7d") = .ok long ∧
      long.fields.names = ["v", "w"] ∧
      short = .object fields ∧ long = .object (fields ++ others) := by
  generalize hsource : "workflow v() \x7b x[0] = f.g() \x7d // end" = source
  generalize hmore : "workflow w() \x7b x[1] = f.g() \x7d" = more
  have hshort : (compile [.callArguments] source).toOption.isSome = true := by
    rw [← hsource]
    decide +kernel
  have hlong : (compile [] (source ++ "\n" ++ more)).toOption.map (·.fields.names) =
      some ["v", "w"] := by
    rw [← hsource, ← hmore]
    decide +kernel
  obtain ⟨short, hshort⟩ := Option.isSome_iff_exists.mp hshort
  obtain ⟨long, hlong, hnames⟩ := Option.map_eq_some_iff.mp hlong
  obtain ⟨fields, others, hfields, hothers⟩ :=
    compile_extends List.not_mem_nil (eq_ok_of_toOption hshort) (eq_ok_of_toOption hlong)
  exact ⟨short, long, fields, others, eq_ok_of_toOption hshort, eq_ok_of_toOption hlong, hnames,
    hfields, hothers⟩

end Workflow
