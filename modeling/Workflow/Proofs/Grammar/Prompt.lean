import Mathlib.Computability.Language
import Workflow.Proofs.Grammar.Soundness
import Workflow.Proofs.Grammar.Completeness

/-!
# Prompt recognizers

A recognizer is a reading without what it makes of the tokens: it says which tokens it leaves. It is
prompt if its end is settled by the tokens it has taken and the one behind them. Whatever else
follows, and wherever the input stops, it ends in the same way. What it has taken when it fails can
still become a word of its language.

Recognizers are composed by `followedBy`, `either` and `behindReference`, and each composition of
prompt recognizers is prompt.
-/

namespace Workflow.Grammar

open Phrase

/-- Says which tokens are left, or why there is no reading. -/
abbrev Recognizer := Position → List Token → Except ParseError (List Token)

variable {α β : Type}

/-- What a reading leaves. -/
def leaves (read : (stop : Position) → (s : List Token) → Except ParseError (Read α s)) :
    Recognizer :=
  fun stop s => Read.rest <$> read stop s

/-- What a reading, perhaps of nothing, leaves. -/
def leavesSome (read : (stop : Position) → (s : List Token) → Except ParseError (ReadSome α s)) :
    Recognizer :=
  fun stop s => ReadSome.rest <$> read stop s

namespace Recognizer

/-- Takes nothing. -/
def nothing : Recognizer := fun _ s => .ok s

/-- Takes a token of a class. -/
def single (k : Terminal) : Recognizer := leaves fun stop => expect stop k

/-- One recognizer, then another. -/
def followedBy (f g : Recognizer) : Recognizer := fun stop s => f stop s >>= g stop

/-- Goes on with `f` behind a token of a class if there is one, and with `g` if there is none. -/
def either (k : Terminal) (f g : Recognizer) : Recognizer := fun stop s =>
  match accept? k s with
  | some ⟨_, r, _⟩ => f stop r
  | none => g stop s

/-- Fails at once. -/
def fail (expected : Expectation) : Recognizer := fun stop s =>
  .error (unexpected stop expected s)

/-- Goes on behind a reference, in a way that depends on whether it has subscripts. -/
def behindReference (f : Bool → Recognizer) : Recognizer := fun stop s =>
  reference stop s >>= fun read => f (isSubscripted read.value) stop read.rest

/-- Fails at once if a token of a class comes next, and goes on with `g` otherwise. -/
def refuse (k : Terminal) (expected : Expectation) (g : Recognizer) : Recognizer := fun stop s =>
  if (accept? k s).isSome then fail expected stop s else g stop s

end Recognizer

open Recognizer

/-! ## What compositions leave -/

section

variable {γ : Type} {r s : List Token} {f : Read α s → Except ParseError γ} {rest : γ → List Token}
  {g : List Token → Except ParseError (List Token)}

theorem rest_bind {x : Except ParseError (Read α s)} (h : ∀ y, rest <$> f y = g y.rest) :
    rest <$> (x >>= f) = (Read.rest <$> x) >>= g := by
  cases x with
  | error e => rfl
  | ok y => exact h y

theorem rest_bind_pure {x : Except ParseError (Read α s)} (h : ∀ y, rest <$> f y = .ok y.rest) :
    rest <$> (x >>= f) = Read.rest <$> x := by
  cases x with
  | error e => rfl
  | ok y => exact h y

theorem rest_after (hr : Shorter r s) (x : Except ParseError (Read α r)) :
    Read.rest <$> after hr x = Read.rest <$> x := by
  cases x <;> rfl

theorem rest_afterSome (hr : Shorter r s) (x : Except ParseError (ReadSome α r)) :
    Read.rest <$> afterSome hr x = ReadSome.rest <$> x := by
  cases x <;> rfl

theorem rest_after_bind {hr : Shorter r s} {x : Except ParseError (Read α r)}
    (h : ∀ y, rest <$> f y = g y.rest) :
    rest <$> (after hr x >>= f) = (Read.rest <$> x) >>= g := by
  rw [rest_bind h, rest_after]

theorem rest_afterSome_bind {hr : Shorter r s} {x : Except ParseError (ReadSome α r)}
    (h : ∀ y, rest <$> f y = g y.rest) :
    rest <$> (afterSome hr x >>= f) = (ReadSome.rest <$> x) >>= g := by
  rw [rest_bind h, rest_afterSome]

theorem rest_after_bind_pure {hr : Shorter r s} {x : Except ParseError (Read α r)}
    (h : ∀ y, rest <$> f y = .ok y.rest) :
    rest <$> (after hr x >>= f) = Read.rest <$> x := by
  rw [rest_bind_pure h, rest_after]

theorem rest_afterSome_bind_pure {hr : Shorter r s} {x : Except ParseError (ReadSome α r)}
    (h : ∀ y, rest <$> f y = .ok y.rest) :
    rest <$> (afterSome hr x >>= f) = ReadSome.rest <$> x := by
  rw [rest_bind_pure h, rest_afterSome]

end

/-! ## Languages -/

/-- The tokens of phrases. -/
def Derived {D : Type} (tokens : D → List Token) : Language Token := {w | ∃ d, tokens d = w}

/-- Single tokens of a class. -/
abbrev Single (k : Terminal) : Language Token := Derived fun t : Tok k => [t.val]

/-- A lexeme of a class. -/
def Terminal.sample : Terminal → Lexeme
  | .symbol sign => .symbol sign
  | .keyword word => .keyword word
  | .identifier | .objectKey => .identifier "x"
  | .literal => .keyword .null
  | .unaryOperator => .keyword .not
  | .binaryOperator => .keyword .and

theorem Terminal.accepts_sample (k : Terminal) : k.accepts k.sample = true := by
  cases k with
  | symbol sign => exact decide_eq_true rfl
  | keyword word => exact decide_eq_true rfl
  | _ => rfl

instance (k : Terminal) : Inhabited (Tok k) := ⟨.ofLexeme k.sample k.accepts_sample⟩

theorem exists_derived {D : Type} [Inhabited D] (tokens : D → List Token) :
    ∃ w, w ∈ Derived tokens :=
  ⟨_, default, rfl⟩

theorem exists_mul {L M : Language Token} (hL : ∃ v, v ∈ L) (hM : ∃ w, w ∈ M) :
    ∃ w, w ∈ L * M := by
  obtain ⟨v, hv⟩ := hL
  obtain ⟨w, hw⟩ := hM
  exact ⟨v ++ w, Language.mem_mul.mpr ⟨v, hv, w, hw, rfl⟩⟩

/-! ## Promptness -/

/-- The tokens taken and the one behind them settle how a recognizer of a language ends on `s`. -/
inductive Prompt (f : Recognizer) (L : Language Token) (s : List Token) : Prop
  /-- It takes a word of the language. -/
  | reads (w rest : List Token) (split : s = w ++ rest) (word : w ∈ L)
      (settled : ∀ stop rest', rest'.head? = rest.head? → f stop (w ++ rest') = .ok rest')
  /-- It fails at the next token, and without that token there is a word that it could become. -/
  | fails (w rest : List Token) (expected : Expectation) (split : s = w ++ rest)
      (viable : ∃ more, w ++ more ∈ L)
      (settled : ∀ stop rest', rest'.head? = rest.head? →
        f stop (w ++ rest') = .error (unexpected stop expected rest'))
  /-- It comes upon a `try` with neither `retry` nor `catch`. -/
  | bareTry (position : Position) (settled : ∀ stop, f stop s = .error (.bareTry position))

section

variable {f g F : Recognizer} {L M N : Language Token} {k : Terminal} {s : List Token}

theorem head?_append_congr {w r r' : List Token} (h : r'.head? = r.head?) :
    (w ++ r').head? = (w ++ r).head? := by
  rw [List.head?_append, List.head?_append, h]

theorem accept?_eq_none_congr {s' : List Token} (h : s'.head? = s.head?)
    (hnone : accept? k s = none) : accept? k s' = none := by
  rw [accept?_eq_none_iff] at hnone ⊢
  rwa [h]

/-- The language may be larger. -/
theorem Prompt.mono (h : Prompt f L s) (hL : ∀ w ∈ L, w ∈ M) : Prompt f M s := by
  cases h with
  | reads w rest split word settled => exact .reads w rest split (hL w word) settled
  | fails w rest expected split viable settled =>
    exact .fails w rest expected split (viable.imp fun more => hL (w ++ more)) settled
  | bareTry position settled => exact .bareTry position settled

/-- A word that is not empty starts with the next token. -/
theorem Prompt.startsAlike (h : Prompt f L s) (hnil : [] ∈ L) :
    Prompt f {v | v ∈ L ∧ (v = [] ∨ v.head? = s.head?)} s := by
  cases h with
  | reads w rest split word settled =>
    refine .reads w rest split ⟨word, ?_⟩ settled
    cases w with
    | nil => exact .inl rfl
    | cons t w => exact .inr (by rw [split]; rfl)
  | fails w rest expected split viable settled =>
    cases w with
    | nil => exact .fails [] rest expected split ⟨[], hnil, .inl rfl⟩ settled
    | cons t w =>
      obtain ⟨more, hmore⟩ := viable
      exact .fails (t :: w) rest expected split ⟨more, hmore, .inr (by rw [split]; rfl)⟩ settled
  | bareTry position settled => exact .bareTry position settled

/-- Only what recognizers do on tokens with the same start matters. -/
theorem Prompt.congr (h : Prompt f L s)
    (hF : ∀ stop s', s'.head? = s.head? → F stop s' = f stop s') : Prompt F L s := by
  cases h with
  | reads w rest split word settled =>
    refine .reads w rest split word fun stop rest' hrest => ?_
    rw [hF _ _ (split ▸ head?_append_congr hrest), settled stop rest' hrest]
  | fails w rest expected split viable settled =>
    refine .fails w rest expected split viable fun stop rest' hrest => ?_
    rw [hF _ _ (split ▸ head?_append_congr hrest), settled stop rest' hrest]
  | bareTry position settled =>
    exact .bareTry position fun stop => (hF stop s rfl).trans (settled stop)

theorem prompt_nothing (hN : [] ∈ N) : Prompt nothing N s :=
  .reads [] s rfl hN fun _ _ _ => rfl

theorem prompt_fail (expected : Expectation) (hN : ∃ w, w ∈ N) : Prompt (fail expected) N s :=
  .fails [] s expected rfl hN fun _ _ _ => rfl

theorem prompt_refuse (expected : Expectation) (hg : Prompt g N s) (hN : ∃ w, w ∈ N) :
    Prompt (refuse k expected g) N s := by
  obtain hnone | ⟨t, r, rfl⟩ := accept?_cases k s
  · refine hg.congr fun stop s' hs' => ?_
    rw [refuse, accept?_eq_none_congr hs' hnone]
    rfl
  · refine (prompt_fail expected hN).congr fun stop s' hs' => ?_
    obtain ⟨r', rfl⟩ := List.head?_eq_some_iff.mp hs'
    rw [refuse, accept?_tok]
    rfl

theorem single_tok (stop : Position) (t : Tok k) (r : List Token) :
    single k stop (t.val :: r) = .ok r := by
  rw [single, leaves, expect, accept?_tok]
  rfl

theorem prompt_single (k : Terminal) (s : List Token) : Prompt (single k) (Single k) s := by
  obtain hnone | ⟨t, r, rfl⟩ := accept?_cases k s
  · refine .fails [] s (.terminal k) rfl (exists_derived _) fun stop rest hrest => ?_
    rw [List.nil_append, single, leaves, expect, accept?_eq_none_congr hrest hnone]
    rfl
  · exact .reads [t.val] r rfl ⟨t, rfl⟩ fun stop rest _ => single_tok stop t rest

/-- Goes on behind tokens that have been taken. -/
theorem Prompt.behind {w rest : List Token} (hg : Prompt g M rest) (hN : ∀ v ∈ M, w ++ v ∈ N)
    (hF : ∀ stop rest', rest'.head? = rest.head? → F stop (w ++ rest') = g stop rest') :
    Prompt F N (w ++ rest) := by
  cases hg with
  | reads v r split word settled =>
    refine .reads (w ++ v) r (by rw [split, List.append_assoc]) (hN v word) fun stop r' hr => ?_
    rw [List.append_assoc, hF _ _ (split ▸ head?_append_congr hr), settled stop r' hr]
  | fails v r expected split viable settled =>
    obtain ⟨more, hmore⟩ := viable
    refine .fails (w ++ v) r expected (by rw [split, List.append_assoc])
      ⟨more, by rw [List.append_assoc]; exact hN _ hmore⟩ fun stop r' hr => ?_
    rw [List.append_assoc, hF _ _ (split ▸ head?_append_congr hr), settled stop r' hr]
  | bareTry position settled =>
    exact .bareTry position fun stop => (hF stop rest rfl).trans (settled stop)

/-- What may follow can depend on what has been taken. -/
theorem Prompt.chain (hf : Prompt f L s)
    (hg : ∀ stop w rest, s = w ++ rest → w ∈ L → f stop s = .ok rest →
      Prompt g {v | w ++ v ∈ N} rest)
    (hN : ∀ w ∈ L, ∃ v, w ++ v ∈ N) : Prompt (f.followedBy g) N s := by
  cases hf with
  | reads w rest split word settled =>
    subst split
    refine (hg .nowhere w rest rfl word (settled .nowhere rest rfl)).behind (fun _ hv => hv)
      fun stop rest' hrest => ?_
    rw [Recognizer.followedBy, settled stop rest' hrest, ok_bind]
  | fails w rest expected split viable settled =>
    obtain ⟨more, hmore⟩ := viable
    obtain ⟨v, hv⟩ := hN _ hmore
    refine .fails w rest expected split ⟨more ++ v, by rwa [← List.append_assoc]⟩
      fun stop r hr => ?_
    rw [Recognizer.followedBy, settled stop r hr, error_bind]
  | bareTry position settled =>
    refine .bareTry position fun stop => ?_
    rw [Recognizer.followedBy, settled stop, error_bind]

theorem Prompt.followedBy (hf : Prompt f L s)
    (hg : ∀ stop rest, f stop s = .ok rest → Prompt g M rest) (hM : ∃ v, v ∈ M) :
    Prompt (f.followedBy g) (L * M) s := by
  refine hf.chain (fun stop w rest _ hw h => (hg stop rest h).mono fun v hv => ?_) fun w hw => ?_
  · exact Language.mem_mul.mpr ⟨w, hw, v, hv, rfl⟩
  · obtain ⟨v, hv⟩ := hM
    exact ⟨v, Language.mem_mul.mpr ⟨w, hw, v, hv, rfl⟩⟩

/-- Behind a reading fewer tokens are left. -/
theorem Prompt.andThen
    {read : (stop : Position) → (s : List Token) → Except ParseError (Read α s)}
    (hf : Prompt (leaves read) L s) (hg : ∀ rest, Shorter rest s → Prompt g M rest)
    (hM : ∃ v, v ∈ M) :
    Prompt ((leaves read).followedBy g) (L * M) s := by
  refine hf.followedBy (fun stop rest h => ?_) hM
  obtain ⟨x, _, rfl⟩ := map_eq_ok.mp h
  exact hg x.rest x.shorter

/-- Behind a reading, perhaps of nothing, no more tokens are left. -/
theorem Prompt.andThenSome
    {read : (stop : Position) → (s : List Token) → Except ParseError (ReadSome α s)}
    (hf : Prompt (leavesSome read) L s) (hg : ∀ rest, NotLonger rest s → Prompt g M rest)
    (hM : ∃ v, v ∈ M) :
    Prompt ((leavesSome read).followedBy g) (L * M) s := by
  refine hf.followedBy (fun stop rest h => ?_) hM
  obtain ⟨x, _, rfl⟩ := map_eq_ok.mp h
  exact hg x.rest x.notLonger

theorem prompt_either (hf : ∀ rest, Shorter rest s → Prompt f L rest)
    (hL : ∀ (t : Tok k), ∀ w ∈ L, t.val :: w ∈ N)
    (hg : accept? k s = none → Prompt g N s) : Prompt (either k f g) N s := by
  obtain hnone | ⟨t, r, rfl⟩ := accept?_cases k s
  · refine (hg hnone).congr fun stop s' hs' => ?_
    rw [either, accept?_eq_none_congr hs' hnone]
  · refine (hf r (shorter_cons t.val r)).behind (w := [t.val]) (hL t) fun stop r' _ => ?_
    rw [List.singleton_append, either, accept?_tok]

/-- One phrase, or several with a separator between them. -/
theorem Prompt.separated
    {read : (stop : Position) → (s : List Token) → Except ParseError (Read α s)}
    (hf : Prompt (leaves read) L s) (hg : ∀ rest, Shorter rest s → Prompt g M rest)
    (hone : ∀ v ∈ L, v ∈ N)
    (hmore : ∀ v ∈ L, ∀ (t : Tok k), ∀ w ∈ M, v ++ t.val :: w ∈ N) :
    Prompt ((leaves read).followedBy (either k g nothing)) N s := by
  refine (hf.andThen (M := {w | ∀ v ∈ L, v ++ w ∈ N}) (fun r hr => ?_) ?_).mono ?_
  · refine prompt_either (fun q hq => hg q (hq.trans hr)) ?_ fun _ => prompt_nothing fun v hv => ?_
    · exact fun t w hw v hv => hmore v hv t w hw
    · rw [List.append_nil]
      exact hone v hv
  · exact ⟨[], fun v hv => by rw [List.append_nil]; exact hone v hv⟩
  · rintro _ ⟨v, hv, w, hw, rfl⟩
    exact hw v hv

/-- A choice that looks further ahead is prompt, too, if what has been read while the choice is
open can still become a word, and if words are taken whole. -/
theorem Prompt.lookahead (hf : Prompt f L s) (hL : ∀ w ∈ L, f .nowhere w = .ok [])
    {ahead : List Token → Bool}
    (hahead : ∀ v, (∃ more, v ++ more ∈ L) ∨ ∀ x y, ahead (v ++ x) = ahead (v ++ y))
    (hF : ∀ stop s', ahead s' = ahead s → F stop s' = f stop s') : Prompt F L s := by
  -- a recognizer that ends before the token `t` takes no word that goes on with `t`
  have decided {w rest rest' : List Token} (hrest : rest'.head? = rest.head?) (hs : s = w ++ rest)
      (hends : ∀ more t, rest.head? = some t → f .nowhere (w ++ t :: more) ≠ .ok []) :
      ahead (w ++ rest') = ahead s := by
    subst hs
    cases rest with
    | nil => rw [List.head?_eq_none_iff.mp hrest]
    | cons t r =>
      obtain ⟨r', rfl⟩ := List.head?_eq_some_iff.mp hrest
      obtain ⟨more, hmore⟩ | hsame := hahead (w ++ [t])
      · rw [List.append_assoc, List.singleton_append] at hmore
        exact absurd (hL _ hmore) (hends more t rfl)
      · simpa only [List.append_assoc, List.singleton_append] using hsame r' r
  cases hf with
  | reads w rest split word settled =>
    refine .reads w rest split word fun stop rest' hrest => ?_
    rw [hF, settled stop rest' hrest]
    refine decided hrest split fun more t ht hend => ?_
    rw [settled .nowhere (t :: more) ht.symm] at hend
    cases hend
  | fails w rest expected split viable settled =>
    refine .fails w rest expected split viable fun stop rest' hrest => ?_
    rw [hF, settled stop rest' hrest]
    refine decided hrest split fun more t ht hend => ?_
    rw [settled .nowhere (t :: more) ht.symm] at hend
    cases hend
  | bareTry position settled =>
    exact .bareTry position fun stop => (hF stop s rfl).trans (settled stop)

end

/-! ## References -/

section

variable {stop : Position} {rest : List Token} {d : Phrase.Reference}

theorem Reads.value_unique {s : List Token} {x : Except ParseError (Read α s)} {a b : α}
    {r r' : List Token} (h : Reads x a r) (h' : Reads x b r') : a = b := by
  obtain ⟨_, rfl⟩ := h
  obtain ⟨_, h'⟩ := h'
  cases h'
  rfl

/-- The tokens of a reference settle its tree. -/
theorem nodes_eq_of_tokens_eq {d' : Phrase.Reference} (h : d.tokens = d'.tokens) :
    d.nodes = d'.nodes := by
  have hread : Reads (reference .nowhere (d.tokens ++ [])) d.nodes [] := d.reads rfl rfl
  have hread' : Reads (reference .nowhere (d'.tokens ++ [])) d'.nodes [] := d'.reads rfl rfl
  rw [h] at hread
  exact hread.value_unique hread'

theorem reads_reference_of_leaves (h : leaves reference stop (d.tokens ++ rest) = .ok rest) :
    Reads (reference stop (d.tokens ++ rest)) d.nodes rest := by
  obtain ⟨x, hread, hrest⟩ := map_eq_ok.mp h
  have hread := reads_of_eq_ok hread
  rw [hrest] at hread
  obtain ⟨d', htokens, hnodes⟩ := exists_reference hread
  rw [nodes_eq_of_tokens_eq (List.append_cancel_right htokens), ← hnodes]
  exact hread

theorem behindReference_of_reads {s : List Token} {parts : List Node} {f : Bool → Recognizer}
    (h : Reads (reference stop s) parts rest) :
    behindReference f stop s = f (isSubscripted parts) stop rest := by
  obtain ⟨_, hread⟩ := h
  rw [behindReference, hread]
  rfl

theorem prompt_behindReference {s : List Token} {f : Bool → Recognizer} {N : Language Token}
    (h : Prompt (leaves reference) (Derived Reference.tokens) s)
    (hN : ∀ d : Phrase.Reference, ∃ w, d.tokens ++ w ∈ N)
    (hf : ∀ (d : Phrase.Reference) rest, Shorter rest s →
      Prompt (f (isSubscripted d.nodes)) {w | d.tokens ++ w ∈ N} rest) :
    Prompt (behindReference f) N s := by
  have failing {stop : Position} {r : List Token} {e : ParseError}
      (he : leaves reference stop r = .error e) : behindReference f stop r = .error e := by
    rw [leaves] at he
    rw [behindReference]
    cases hread : reference stop r with
    | error e' =>
      rw [hread] at he
      cases he
      rfl
    | ok x =>
      rw [hread] at he
      cases he
  cases h with
  | reads w rest split word settled =>
    obtain ⟨d, rfl⟩ := word
    have hread := reads_reference_of_leaves (settled .nowhere rest rfl)
    subst split
    refine (hf d rest hread.shorter).behind (fun _ hv => hv) fun stop rest' hrest => ?_
    exact behindReference_of_reads (reads_reference_of_leaves (settled stop rest' hrest))
  | fails w rest expected split viable settled =>
    obtain ⟨more, d, hd⟩ := viable
    obtain ⟨v, hv⟩ := hN d
    rw [hd, List.append_assoc] at hv
    exact .fails w rest expected split ⟨more ++ v, hv⟩ fun stop r hr => failing (settled stop r hr)
  | bareTry position settled => exact .bareTry position fun stop => failing (settled stop)

end

end Workflow.Grammar
