import Workflow.Proofs.Layout.Parsing
import Workflow.Proofs.Layout.Programs
import Workflow.Proofs.Token.Tiling

/-!
# Compilation does not depend on layout

A source text may be laid out anew: the images of its tokens in order, with other gaps between them.
It then has the same tokens up to positions, and it compiles to the same document or fails with the
same report up to the position.
-/

namespace Workflow

/-- A gap that starts with a blank. -/
def Spacing (cs : List Char) : Prop :=
  ∃ c rest, cs = c :: rest ∧ Token.isGap c = true ∧ Gap rest

/-- Images in order, each with a spacing behind it. Only behind the last one it may be missing. -/
inductive Layout : List String → List Char → Prop where
  | nil : Layout [] []
  | cons {image : String} {images : List String} {gap rest : List Char}
      (hgap : Spacing gap ∨ gap = [] ∧ images = []) (hrest : Layout images rest) :
      Layout (image :: images) (image.toList ++ (gap ++ rest))

/-- A text that lays images out: a spacing or nothing, and then their layout. -/
def LaysOut (images : List String) (cs : List Char) : Prop :=
  ∃ gap rest, cs = gap ++ rest ∧ (Spacing gap ∨ gap = []) ∧ Layout images rest

theorem Spacing.gap {cs : List Char} (h : Spacing cs) : Gap cs := by
  obtain ⟨c, rest, rfl, hc, hrest⟩ := h
  exact .blank hc hrest

/-! ## Tokens -/

namespace Token

/-- The images of all tokens but the end of input. -/
def images (ts : List Token) : List String :=
  (ts.filter (·.lexeme ≠ .endOfInput)).map (·.image)

theorem mem_delimiters_of_isGap {c : Char} (hc : isGap c = true) : c ∈ Lexeme.delimiters := by
  simp only [isGap, Bool.or_eq_true, decide_eq_true_eq] at hc
  obtain ((rfl | rfl) | rfl) | rfl := hc
  all_goals decide

theorem stopsAt_spacing {gap : List Char} (hgap : Spacing gap) (l : Lexeme) (rest : List Char) :
    StopsAt l.continuesWith (gap ++ rest) := by
  obtain ⟨c, gap, rfl, hc, -⟩ := hgap
  rw [List.cons_append, stopsAt_cons]
  exact Lexeme.continuesWith_of_mem_delimiters (mem_delimiters_of_isGap hc) l

/-- Tokens that are read one after the other are read again from every layout of their images. -/
theorem Chain.ofChars_layout {afterValue : Bool} {ts : List Token} (h : Chain afterValue ts)
    {cs : List Char} (hcs : Layout (images ts) cs) (p : Position) :
    ∃ ts', ofChars afterValue p cs = .ok ts' ∧ Alikes ts ts' := by
  induction h generalizing cs p with
  | stop afterValue q =>
    cases hcs with
    | nil => exact ⟨_, ofChars_nil _ _, .cons ⟨rfl, rfl⟩ .nil⟩
  | @token afterValue t ts hscan _ ih =>
    rw [images, List.filter_cons_of_pos (by simpa using hscan.1)] at hcs
    cases hcs with
    | @cons _ _ gap rest hgap hrest =>
      have hstops : StopsAt t.lexeme.continuesWith (gap ++ rest) ∧ Gap gap := by
        rcases hgap with hgap | ⟨rfl, hnil⟩
        · exact ⟨stopsAt_spacing hgap _ _, hgap.gap⟩
        · rw [hnil] at hrest
          cases hrest
          exact ⟨stopsAt_nil _, .nil⟩
      obtain ⟨ts', hts', halike⟩ := ih hrest ((p.advance t.image.toList).advance gap)
      refine ⟨⟨t.lexeme, t.image, p⟩ :: ts', ?_, .cons ⟨rfl, rfl⟩ halike⟩
      rw [hscan.ofChars_image id hstops.1, ofChars_gap hstops.2, hts']
      rfl

end Token

theorem tokenize_laysOut {source source' : String} {ts : List Token}
    (h : tokenize source = .ok ts) (hlayout : LaysOut (Token.images ts) source'.toList) :
    ∃ ts', tokenize source' = .ok ts' ∧ Alikes ts ts' := by
  have hread : Token.ofChars false (.behind []) source.toList = .ok ts := mapError_eq_ok.mp h
  obtain ⟨-, hchain⟩ := Token.tiling_ofChars hread
  obtain ⟨gap, rest, hcs, hgap, hrest⟩ := hlayout
  have hgap : Gap gap := by
    rcases hgap with hgap | rfl
    · exact hgap.gap
    · exact .nil
  obtain ⟨ts', hts', halike⟩ := hchain.ofChars_layout hrest (Position.start.advance gap)
  refine ⟨ts', ?_, halike⟩
  rw [tokenize, Token.ofSource, hcs, Token.ofChars_gap hgap, hts']
  rfl

/-! ## Documents -/

/-- Failures that are reported alike. -/
def Failure.Alike (f f' : Failure) : Prop :=
  (Report.ofFailure f).unplaced = (Report.ofFailure f').unplaced

/-- Tokens that are alike have the same program or failures that are reported alike. -/
theorem buildProgram_agrees {ts ts' : List Token} (h : Alikes ts ts') :
    Agree Failure.Alike Eq (parseTokens ts >>= buildProgram) (parseTokens ts' >>= buildProgram) := by
  have hparse : Agree Failure.Alike Node.Alike (parseTokens ts) (parseTokens ts') :=
    (Grammar.ofTokens_alike h).mapError fun _ _ he => he
  refine hparse.bind fun n m hnm => ?_
  exact (Program.ofTree_agrees hnm).mapError fun _ _ he => he

theorem compile_agrees {source source' : String} {ts ts' : List Token}
    (h : tokenize source = .ok ts) (h' : tokenize source' = .ok ts') (hts : Alikes ts ts')
    (disabled : List Check) :
    Agree Failure.Alike Eq (compile disabled source) (compile disabled source') := by
  have hbuild : Agree Failure.Alike Eq (build source) (build source') := by
    rw [build, build, parse, parse, h, h', ok_bind, ok_bind]
    exact buildProgram_agrees hts
  rw [compile, compile]
  refine hbuild.bind fun program _ hprogram => ?_
  subst hprogram
  exact Agree.refl (E := Failure.Alike) (fun _ => rfl) _

theorem map_lexeme_image {ts ts' : List Token} (h : Alikes ts ts') :
    ts'.map (fun t => (t.lexeme, t.image)) = ts.map fun t => (t.lexeme, t.image) := by
  induction h with
  | nil => rfl
  | cons ht _ ih => rw [List.map_cons, List.map_cons, ht.1, ht.2, ih]

/-- A source text that is laid out anew has the same lexemes with the same images, and whatever
checks are disabled it compiles to the same document, or its failure has the same report up to the
position. -/
theorem compile_layout {source source' : String} {tokens : List Token}
    (h : tokenize source = .ok tokens)
    (hlayout : LaysOut (Token.images tokens) source'.toList) :
    (∃ tokens', tokenize source' = .ok tokens' ∧
      tokens'.map (fun t => (t.lexeme, t.image)) = tokens.map fun t => (t.lexeme, t.image)) ∧
    ∀ disabled : List Check,
      (compile disabled source').mapError (fun f => (Report.ofFailure f).unplaced) =
        (compile disabled source).mapError fun f => (Report.ofFailure f).unplaced := by
  obtain ⟨tokens', h', halike⟩ := tokenize_laysOut h hlayout
  refine ⟨⟨tokens', h', map_lexeme_image halike⟩, fun disabled => ?_⟩
  have hagree := compile_agrees h h' halike disabled
  exact (Agree.mapError (F := Eq) hagree fun _ _ he => he).eq.symm

/-- A sign behind a value, laid out with a comment in front of it and a blank behind it. -/
theorem compile_layout_sample :
    LaysOut ["workflow", "w", "(", ")", "\x7b", "return", "1", "-", "1", "\x7d"]
        "\nworkflow w ( ) \x7b return 1 // one\n- 1 \x7d".toList ∧
      ∀ disabled : List Check,
        (compile disabled "\nworkflow w ( ) \x7b return 1 // one\n- 1 \x7d").mapError
            (fun f => (Report.ofFailure f).unplaced) =
          (compile disabled "workflow w()\x7breturn 1 -1\x7d").mapError
            fun f => (Report.ofFailure f).unplaced := by
  have hread : tokenize "workflow w()\x7breturn 1 -1\x7d" = .ok
      [⟨.keyword .workflow, "workflow", ⟨0, 1, 1⟩⟩, ⟨.identifier "w", "w", ⟨9, 1, 10⟩⟩,
        ⟨.symbol .lparen, "(", ⟨10, 1, 11⟩⟩, ⟨.symbol .rparen, ")", ⟨11, 1, 12⟩⟩,
        ⟨.symbol .lbrace, "\x7b", ⟨12, 1, 13⟩⟩, ⟨.keyword .return, "return", ⟨13, 1, 14⟩⟩,
        ⟨.number (.int 1), "1", ⟨20, 1, 21⟩⟩, ⟨.symbol .minus, "-", ⟨22, 1, 23⟩⟩,
        ⟨.number (.int 1), "1", ⟨23, 1, 24⟩⟩, ⟨.symbol .rbrace, "\x7d", ⟨24, 1, 25⟩⟩,
        ⟨.endOfInput, "", ⟨25, 1, 26⟩⟩] :=
    eq_ok_of_toOption (by decide +kernel)
  have hspace : Spacing " ".toList := ⟨' ', [], rfl, rfl, .nil⟩
  have hline : ∀ c ∈ " one".toList, c ≠ '\n' := List.all_iff_forall_prop.mp (by decide)
  have hcomment : Spacing " // one\n".toList := ⟨' ', _, rfl, rfl, Gap.comment hline .nil⟩
  have hclose : Layout ["1", "-", "1", "\x7d"] "1 // one\n- 1 \x7d".toList :=
    .cons (.inl hcomment) (.cons (.inl hspace) (.cons (.inl hspace)
      (.cons (.inr ⟨rfl, rfl⟩) .nil)))
  have hlayout : LaysOut ["workflow", "w", "(", ")", "\x7b", "return", "1", "-", "1", "\x7d"]
      "\nworkflow w ( ) \x7b return 1 // one\n- 1 \x7d".toList := by
    refine ⟨"\n".toList, _, rfl, .inl ⟨'\n', [], rfl, rfl, .nil⟩, ?_⟩
    exact .cons (.inl hspace) (.cons (.inl hspace) (.cons (.inl hspace) (.cons (.inl hspace)
      (.cons (.inl hspace) (.cons (.inl hspace) hclose)))))
  exact ⟨hlayout, (compile_layout hread hlayout).2⟩

end Workflow
