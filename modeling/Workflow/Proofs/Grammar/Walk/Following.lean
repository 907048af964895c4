import Mathlib.Data.List.TakeWhile
import Mathlib.Logic.Relation
import Workflow.Proofs.Grammar.Walk

/-!
# Walks that follow a reading

A cursor at or before the first end of input stands in front of a list of tokens, those up to the
first end of input. A walk follows a reading of that list if it ends as the reading does: with the
same value in front of the same tokens, or with the same fault. On its way it only takes steps
that stay within the first end of input.
-/

namespace Workflow.Grammar

/-! ## Streams -/

namespace Stream

variable (S : Stream)

theorem program_eq : S.program = S.front.takeWhile (·.lexeme ≠ .endOfInput) := by
  rw [program, tokens, List.takeWhile_append]
  split
  · next h =>
    have hfinal : [S.final].takeWhile (·.lexeme ≠ .endOfInput) = [] := by simp [S.ended]
    rw [hfinal, List.append_nil]
    exact (List.takeWhile_prefix _).eq_of_length h |>.symm
  · rfl

theorem firstEnd_le : S.firstEnd ≤ S.front.length := by
  rw [firstEnd, program_eq]
  exact (List.takeWhile_prefix _).length_le

theorem lexeme_ne_of_mem {t : Token} (h : t ∈ S.program) : t.lexeme ≠ .endOfInput := by
  simpa using List.mem_takeWhile_imp h

theorem token_eq_getD (n : Nat) : S.token n = S.tokens.getD n S.final := by
  rw [token, tokens, List.getD_eq_getElem?_getD, List.getD_eq_getElem?_getD]
  rcases Nat.lt_trichotomy n S.front.length with h | h | h
  · rw [List.getElem?_append_left h]
  · rw [List.getElem?_append_right (by omega), List.getElem?_eq_none (by omega), h]
    simp
  · rw [List.getElem?_eq_none (by omega), List.getElem?_eq_none (by simp; omega)]

/-- Behind the program stands the first end of input. -/
theorem exists_dropWhile : ∃ rest,
    S.tokens.dropWhile (·.lexeme ≠ .endOfInput) = S.token S.firstEnd :: rest ∧
      (S.token S.firstEnd).lexeme = .endOfInput := by
  have hsplit : S.program ++ S.tokens.dropWhile (·.lexeme ≠ .endOfInput) = S.tokens :=
    List.takeWhile_append_dropWhile
  cases hbehind : S.tokens.dropWhile (·.lexeme ≠ .endOfInput) with
  | nil =>
    -- the last token of the stream is no token of its program
    have hall := List.dropWhile_eq_nil_iff.mp hbehind S.final (by simp [tokens])
    simp [S.ended] at hall
  | cons eof rest =>
    rw [hbehind] at hsplit
    have htoken : S.token S.firstEnd = eof := by
      rw [token_eq_getD, ← hsplit, List.getD_eq_getElem?_getD, firstEnd,
        List.getElem?_append_right (Nat.le_refl _)]
      simp
    have hhead := List.head?_dropWhile_not (fun t => decide (t.lexeme ≠ .endOfInput)) S.tokens
    rw [hbehind] at hhead
    exact ⟨rest, by rw [htoken], by rw [htoken]; simpa using hhead⟩

/-- The tokens up to the first end of input. -/
theorem token_eq {n : Nat} (h : n ≤ S.firstEnd) :
    S.token n = (S.program.drop n).headD (S.token S.firstEnd) := by
  rcases Nat.lt_or_eq_of_le h with h | rfl
  · obtain ⟨rest, hrest⟩ : S.program <+: S.tokens := List.takeWhile_prefix _
    rw [token_eq_getD, List.getD_eq_getElem?_getD, ← hrest, List.getElem?_append_left h,
      List.headD_eq_head?_getD, List.head?_drop, List.getElem?_eq_getElem h]
    rfl
  · rw [firstEnd, List.drop_length]
    rfl

end Stream

namespace Walk

variable {S : Stream}

/-! ## Walks one after the other -/

theorem Ends.andThen {α β : Type} {w : Walk α} {f : α → Walk β} {trail middle last : Trail}
    {value : α} {result : Except ParseError β} (hw : Ends S w trail (.ok value) middle)
    (hf : Ends S (f value) middle result last) : Ends S (w >>= f) trail result last := by
  generalize hr : (Except.ok value : Except ParseError α) = r at hw
  induction hw with
  | done v trail =>
    cases hr
    exact hf
  | fault e trail => cases hr
  | look _ ih => exact .look (ih hf hr)
  | move _ ih => exact .move (ih hf hr)
  | call hwalk _ _ ih => exact .call hwalk (ih hf hr)
  | callFault _ _ => cases hr

theorem Ends.andThen_fault {α β : Type} {w : Walk α} {f : α → Walk β} {trail last : Trail}
    {error : ParseError} (hw : Ends S w trail (.error error) last) :
    Ends S (w >>= f) trail (.error error) last := by
  generalize hr : (Except.error error : Except ParseError α) = r at hw
  induction hw with
  | done v trail => cases hr
  | fault e trail =>
    cases hr
    exact .fault error trail
  | look _ ih => exact .look (ih hr)
  | move _ ih => exact .move (ih hr)
  | call hwalk _ _ ih => exact .call hwalk (ih hr)
  | callFault hwalk _ =>
    cases hr
    exact .callFault hwalk

/-- A walk ends in one way only. -/
theorem Ends.unique {α : Type} {w : Walk α} {trail last last' : Trail}
    {result result' : Except ParseError α} (h : Ends S w trail result last)
    (h' : Ends S w trail result' last') : result = result' ∧ last = last' := by
  induction h generalizing last' with
  | done v trail =>
    cases h'
    exact ⟨rfl, rfl⟩
  | fault e trail =>
    cases h'
    exact ⟨rfl, rfl⟩
  | look _ ih =>
    cases h' with
    | look h' => exact ih h'
  | move _ ih =>
    cases h' with
    | move h' => exact ih h'
  | call _ _ ihwalk ihnext =>
    cases h' with
    | call hwalk hnext =>
      obtain ⟨hvalue, rfl⟩ := ihwalk hwalk
      cases hvalue
      exact ihnext hnext
    | callFault hwalk => cases (ihwalk hwalk).1
  | callFault _ ih =>
    cases h' with
    | call hwalk _ => cases (ih hwalk).1
    | callFault hwalk =>
      obtain ⟨herror, rfl⟩ := ih hwalk
      cases herror
      exact ⟨rfl, rfl⟩

theorem Ends.iff {α : Type} {w : Walk α} {trail last last' : Trail}
    {result result' : Except ParseError α} (h : Ends S w trail result last) :
    Ends S w trail result' last' ↔ result' = result ∧ last' = last := by
  constructor
  · intro h'
    exact h'.unique h
  · rintro ⟨rfl, rfl⟩
    exact h

end Walk

/-! ## Steps within the first end of input -/

/-- A look at a token up to the first end of input, or a move from a token before it. -/
inductive Trail.Step (S : Stream) : Trail → Trail → Prop where
  | look {trail : Trail} {ahead : Nat} (h : trail.cursor + ahead ≤ S.firstEnd) :
      Step S trail (trail.look ahead)
  | move {trail : Trail} (h : trail.cursor < S.firstEnd) : Step S trail (trail.move S)

/-- A trail on which the cursor never goes back and on which no token behind the first end of input
is looked at or reached. -/
structure Trail.Orderly (S : Stream) (trail : Trail) : Prop where
  cursor_le : trail.cursor ≤ S.firstEnd
  number_le : ∀ l ∈ trail.looks, l.number ≤ S.firstEnd
  ascending : (trail.looks.map Look.cursor ++ [trail.cursor]).Pairwise (· ≤ ·)

namespace Trail

variable {S : Stream} {trail last : Trail}

theorem cursor_move (h : trail.cursor < S.firstEnd) : (trail.move S).cursor = trail.cursor + 1 := by
  have := S.firstEnd_le
  simp only [move]
  rw [if_pos (by omega)]

theorem orderly_start : Trail.start.Orderly S :=
  ⟨Nat.zero_le _, List.forall_mem_nil _, List.pairwise_singleton _ _⟩

theorem Orderly.step (h : trail.Orderly S) (hstep : Step S trail last) : last.Orderly S := by
  have hbefore := List.pairwise_append.mp h.ascending
  cases hstep with
  | @look ahead hahead =>
    refine ⟨h.cursor_le, ?_, ?_⟩
    · intro l hl
      rcases List.mem_append.mp hl with hl | hl
      · exact h.number_le l hl
      · rw [List.mem_singleton.mp hl]
        exact hahead
    · simp only [look, List.map_append, List.map_cons, List.map_nil]
      refine List.pairwise_append.mpr ⟨h.ascending, List.pairwise_singleton _ _, ?_⟩
      intro a ha b hb
      rw [List.mem_singleton.mp hb]
      rcases List.mem_append.mp ha with ha | ha
      · exact hbefore.2.2 a ha _ (List.mem_singleton_self _)
      · exact Nat.le_of_eq (List.mem_singleton.mp ha)
  | move hmove =>
    have hcursor := cursor_move hmove
    refine ⟨by omega, h.number_le, ?_⟩
    rw [hcursor]
    refine List.pairwise_append.mpr ⟨hbefore.1, List.pairwise_singleton _ _, ?_⟩
    intro a ha b hb
    rw [List.mem_singleton.mp hb]
    exact Nat.le_succ_of_le (hbefore.2.2 a ha _ (List.mem_singleton_self _))

/-- What every step keeps, a row of steps keeps. -/
theorem Orderly.steps (h : trail.Orderly S) (hsteps : Relation.ReflTransGen (Step S) trail last) :
    last.Orderly S := by
  induction hsteps with
  | refl => exact h
  | tail _ hstep ih => exact ih.step hstep

theorem cursor_le_of_steps (hsteps : Relation.ReflTransGen (Step S) trail last) :
    trail.cursor ≤ last.cursor := by
  induction hsteps with
  | refl => exact Nat.le_refl _
  | tail _ hstep ih =>
    refine Nat.le_trans ih ?_
    cases hstep with
    | look _ => exact Nat.le_refl _
    | move hmove => exact cursor_move hmove ▸ Nat.le_succ _

end Trail

/-! ## Following -/

/-- The cursor stands in front of these tokens and then the first end of input. -/
def Stands (S : Stream) (trail : Trail) (s : List Token) : Prop :=
  trail.cursor ≤ S.firstEnd ∧ S.program.drop trail.cursor = s

/-- A walk takes steps within the first end of input, and ends as a reading does: with the value
read and in front of the tokens left, or with the same fault. -/
def Follows (S : Stream) {α β : Type} (value : β → α) (rest : β → List Token) (trail : Trail)
    (w : Walk α) (x : Except ParseError β) : Prop :=
  ∃ last, Relation.ReflTransGen (Trail.Step S) trail last ∧ w.Ends S trail (x.map value) last ∧
    ∀ b, x = .ok b → Stands S last (rest b)

/-- A walk follows a reading of some tokens. -/
abbrev Tracks (S : Stream) {α : Type} {s : List Token} (trail : Trail) (w : Walk α)
    (x : Except ParseError (Read α s)) : Prop :=
  Follows S Read.value Read.rest trail w x

/-- A walk follows a reading of some tokens or of none. -/
abbrev TracksSome (S : Stream) {α : Type} {s : List Token} (trail : Trail) (w : Walk α)
    (x : Except ParseError (ReadSome α s)) : Prop :=
  Follows S ReadSome.value ReadSome.rest trail w x

section

variable {S : Stream} {α β γ δ : Type} {value : β → α} {rest : β → List Token}
  {trail : Trail} {s r : List Token}

theorem Stands.length_eq (h : Stands S trail s) : trail.cursor + s.length = S.firstEnd := by
  obtain ⟨hle, rfl⟩ := h
  rw [List.length_drop]
  exact Nat.add_sub_of_le hle

/-- The token at the cursor: the next one to read, or the first end of input. -/
def Stream.next (S : Stream) (s : List Token) : Token := s.headD (S.token S.firstEnd)

theorem Stream.next_cons (S : Stream) (t : Token) (s : List Token) : S.next (t :: s) = t := rfl

theorem Stands.token_eq (h : Stands S trail s) {ahead : Nat} (hahead : ahead ≤ s.length) :
    S.token (trail.cursor + ahead) = S.next (s.drop ahead) := by
  have := h.length_eq
  obtain ⟨hle, rfl⟩ := h
  rw [S.token_eq (by omega), Stream.next, List.drop_drop]

theorem Stands.look (h : Stands S trail s) (ahead : Nat) : Stands S (trail.look ahead) s := h

theorem Stands.move {t : Token} (h : Stands S trail (t :: s)) : Stands S (trail.move S) s := by
  have hlength := h.length_eq
  rw [List.length_cons] at hlength
  have hcursor : (trail.move S).cursor = trail.cursor + 1 := Trail.cursor_move (by omega)
  refine ⟨by omega, ?_⟩
  rw [hcursor, ← List.drop_drop, h.2]
  rfl

/-- The value of a reading that ends here. -/
theorem follows_done {b : β} (h : Stands S trail (rest b)) :
    Follows S value rest trail (pure (value b)) (.ok b) :=
  ⟨trail, .refl, .done (value b) trail, fun c hc => by cases hc; exact h⟩

theorem follows_fault (error : ParseError) :
    Follows S value rest trail (.fault error) (.error error) :=
  ⟨trail, .refl, .fault error trail, fun b hb => by cases hb⟩

theorem tracks_done {v : α} {h : Shorter r s} (hr : Stands S trail r) :
    Tracks S trail (pure v) (.ok ⟨v, r, h⟩) :=
  follows_done (b := (⟨v, r, h⟩ : Read α s)) hr

theorem tracksSome_done {v : α} {h : NotLonger r s} (hr : Stands S trail r) :
    TracksSome S trail (pure v) (.ok ⟨v, r, h⟩) :=
  follows_done (b := (⟨v, r, h⟩ : ReadSome α s)) hr

/-- Walks one after the other follow readings one after the other. -/
theorem Follows.andThen {value' : δ → γ} {rest' : δ → List Token} {w : Walk α} {f : α → Walk γ}
    {x : Except ParseError β} {g : β → Except ParseError δ} (hw : Follows S value rest trail w x)
    (hf : ∀ b last, x = .ok b → Stands S last (rest b) →
      Follows S value' rest' last (f (value b)) (g b)) :
    Follows S value' rest' trail (w >>= f) (x >>= g) := by
  obtain ⟨middle, hsteps, hends, hstands⟩ := hw
  cases x with
  | error e => exact ⟨middle, hsteps, hends.andThen_fault, fun b hb => by cases hb⟩
  | ok b =>
    obtain ⟨last, hsteps', hends', hstands'⟩ := hf b middle rfl (hstands b rfl)
    exact ⟨last, hsteps.trans hsteps', hends.andThen hends', hstands'⟩

/-- A call follows what its routine follows. -/
theorem follows_callTo {routine : Routine α} {x : Except ParseError β}
    (h : Follows S value rest trail routine.walk x) :
    Follows S value rest trail (Walk.callTo routine) x := by
  obtain ⟨last, hsteps, hends, hstands⟩ := h
  refine ⟨last, hsteps, ?_, hstands⟩
  cases x with
  | error e => exact .callFault hends
  | ok b => exact .call hends (.done _ _)

/-- A look ahead leaves the cursor where it stands. -/
theorem follows_lookAt (hs : Stands S trail s) {ahead : Nat} (hahead : ahead ≤ s.length)
    {f : Token → Walk α} {x : Except ParseError β}
    (hf : ∀ last, Stands S last s → Follows S value rest last (f (S.next (s.drop ahead))) x) :
    Follows S value rest trail (Walk.lookAt ahead >>= f) x := by
  have hlength := hs.length_eq
  obtain ⟨last, hsteps, hends, hstands⟩ := hf (trail.look ahead) (hs.look ahead)
  refine ⟨last, .head (.look (by omega)) hsteps, ?_, hstands⟩
  rw [← hs.token_eq hahead] at hends
  exact Walk.Ends.andThen (.look (.done _ _)) hends

theorem follows_advance {t : Token} (hs : Stands S trail (t :: s)) {f : Token → Walk α}
    {x : Except ParseError β}
    (hf : ∀ last, Stands S last s → Follows S value rest last (f t) x) :
    Follows S value rest trail (Walk.advance >>= f) x := by
  have hlength := hs.length_eq
  rw [List.length_cons] at hlength
  have hmove : (trail.look 0).cursor < S.firstEnd := by
    show trail.cursor < S.firstEnd
    omega
  obtain ⟨last, hsteps, hends, hstands⟩ := hf _ (hs.look 0).move
  have ht : S.token (trail.cursor + 0) = t := hs.token_eq (Nat.zero_le _)
  refine ⟨last, .head (.look (by omega)) (.head (.move hmove) hsteps), ?_, hstands⟩
  refine Walk.Ends.andThen (.andThen (.look (.done _ _)) (.move (.done _ _))) ?_
  rw [ht]
  exact hends

/-! ## The parts of every walk -/

theorem Stands.lexeme_ne (h : Stands S trail s) : ∀ t ∈ s, t.lexeme ≠ .endOfInput := by
  obtain ⟨-, rfl⟩ := h
  intro t ht
  exact S.lexeme_ne_of_mem (List.mem_of_mem_drop ht)

theorem Stream.lexeme_next_nil (S : Stream) : (S.next []).lexeme = .endOfInput := by
  obtain ⟨_, -, h⟩ := S.exists_dropWhile
  exact h

theorem Stands.lexeme_next_eq_endOfInput (h : Stands S trail s) :
    (S.next s).lexeme = .endOfInput ↔ s = [] := by
  cases s with
  | nil => simp [S.lexeme_next_nil]
  | cons t s => simp [S.next_cons, h.lexeme_ne t List.mem_cons_self]

theorem Terminal.accepts_endOfInput (k : Terminal) : k.accepts .endOfInput = false := by
  cases k <;> rfl

/-- A class of tokens is accepted at the cursor where it is accepted from the list. -/
theorem accepts_next {k : Terminal} : k.accepts (S.next s).lexeme = (accept? k s).isSome := by
  cases s with
  | nil => rw [S.lexeme_next_nil, k.accepts_endOfInput]; rfl
  | cons t s =>
    rw [S.next_cons, accept?]
    cases k.accepts t.lexeme <;> rfl

theorem lexeme_next_eq_symbol {sign : Symbol} :
    (S.next s).lexeme = .symbol sign ↔ (accept? (.symbol sign) s).isSome = true := by
  rw [← accepts_next (S := S)]
  simp [Terminal.accepts]

theorem lexeme_next_of_accept? {sign : Symbol} {read : Read Token s}
    (haccept : accept? (.symbol sign) s = some read) : (S.next s).lexeme = .symbol sign := by
  rw [lexeme_next_eq_symbol, haccept]
  rfl

theorem lexeme_next_ne_of_accept? {sign : Symbol} (haccept : accept? (.symbol sign) s = none) :
    (S.next s).lexeme ≠ .symbol sign := by
  intro h
  rw [lexeme_next_eq_symbol, haccept] at h
  cases h

theorem eq_cons_of_accept? {k : Terminal} {t : Token} {h : Shorter r s}
    (haccept : accept? k s = some ⟨t, r, h⟩) : s = t :: r := by
  cases s with
  | nil => cases haccept
  | cons u s =>
    cases hk : k.accepts u.lexeme <;> simp [accept?, hk] at haccept
    rw [haccept.1, haccept.2]

theorem eq_cons_of_expect {stop : Position} {k : Terminal} {t : Token} {h : Shorter r s}
    (hexpect : expect stop k s = .ok ⟨t, r, h⟩) : s = t :: r := by
  unfold expect at hexpect
  split at hexpect
  · next haccept =>
    cases hexpect
    exact eq_cons_of_accept? haccept
  · cases hexpect

theorem follows_here (hs : Stands S trail s) {f : Position → Walk α} {x : Except ParseError β}
    (hf : ∀ last, Stands S last s → Follows S value rest last (f (here S.stop s)) x) :
    Follows S value rest trail (Walk.here >>= f) x := by
  have hposition : (S.next s).position = here S.stop s := by cases s <;> rfl
  rw [← hposition] at hf
  exact follows_lookAt hs (Nat.zero_le _) hf

theorem follows_fail (hs : Stands S trail s) (expected : Expectation) :
    Follows S value rest trail (Walk.fail expected) (.error (unexpected S.stop expected s)) := by
  refine follows_lookAt hs (Nat.zero_le _) ?_
  intro last hlast
  cases s with
  | nil =>
    rw [List.drop_nil, if_pos S.lexeme_next_nil]
    exact follows_fault _
  | cons t s =>
    have ht : t.lexeme ≠ .endOfInput := hs.lexeme_ne t List.mem_cons_self
    rw [List.drop_zero, S.next_cons, if_neg ht]
    exact follows_fault _

theorem accept?_tracks_none {k : Terminal} (hs : Stands S trail s) (h : accept? k s = none) :
    TracksSome S trail (Walk.accept? k) (.ok ⟨none, s, notLonger_refl s⟩) := by
  refine follows_lookAt hs (Nat.zero_le _) ?_
  intro last hlast
  rw [List.drop_zero, accepts_next, h]
  exact tracksSome_done hlast

theorem accept?_tracks_some {k : Terminal} (hs : Stands S trail s) {t : Token} {h : Shorter r s}
    (haccept : accept? k s = some ⟨t, r, h⟩) :
    TracksSome S trail (Walk.accept? k) (.ok ⟨some t, r, h.notLonger⟩) := by
  refine follows_lookAt hs (Nat.zero_le _) ?_
  intro last hlast
  rw [List.drop_zero, accepts_next, haccept]
  obtain rfl := eq_cons_of_accept? haccept
  refine follows_advance hlast ?_
  intro last hlast
  exact tracksSome_done hlast

/-- A token of a class is read from the stream where it is read from the list. -/
theorem follows_accept? {k : Terminal} (hs : Stands S trail s) {f : Option Token → Walk α}
    {x : Except ParseError β}
    (hnone : accept? k s = none → ∀ last, Stands S last s → Follows S value rest last (f none) x)
    (hsome : ∀ t r (h : Shorter r s), accept? k s = some ⟨t, r, h⟩ →
      ∀ last, Stands S last r → Follows S value rest last (f (some t)) x) :
    Follows S value rest trail (Walk.accept? k >>= f) x := by
  cases haccept : accept? k s with
  | none =>
    refine Follows.andThen (g := fun _ => x) (accept?_tracks_none hs haccept) ?_
    intro b last hb hlast
    cases hb
    exact hnone haccept last hlast
  | some read =>
    obtain ⟨t, r, h⟩ := read
    refine Follows.andThen (g := fun _ => x) (accept?_tracks_some hs haccept) ?_
    intro b last hb hlast
    cases hb
    exact hsome t r h haccept last hlast

theorem expect_tracks {k : Terminal} (hs : Stands S trail s) :
    Tracks S trail (Walk.expect k) (expect S.stop k s) := by
  refine follows_accept? hs ?_ ?_
  · intro haccept last hlast
    rw [expect, haccept]
    exact follows_fail hlast _
  · intro t r h haccept last hlast
    rw [expect, haccept]
    exact tracks_done hlast

theorem tracks_bind {w : Walk γ} {f : γ → Walk α} {x : Except ParseError (Read γ s)}
    {g : Read γ s → Except ParseError β} (hw : Tracks S trail w x)
    (hf : ∀ c r (h : Shorter r s) last, Stands S last r →
      Follows S value rest last (f c) (g ⟨c, r, h⟩)) :
    Follows S value rest trail (w >>= f) (x >>= g) :=
  hw.andThen fun b last _ hb => hf b.value b.rest b.shorter last hb

theorem tracks_after {h : Shorter r s} {w : Walk α} {x : Except ParseError (Read α r)}
    (hw : Tracks S trail w x) : Tracks S trail w (after h x) := by
  obtain ⟨last, hsteps, hends, hstands⟩ := hw
  cases x with
  | error e => exact ⟨last, hsteps, hends, fun b hb => by cases hb⟩
  | ok a => exact ⟨last, hsteps, hends, fun b hb => by cases hb; exact hstands a rfl⟩

theorem tracks_afterSome {h : Shorter r s} {w : Walk α} {x : Except ParseError (ReadSome α r)}
    (hw : TracksSome S trail w x) : Tracks S trail w (afterSome h x) := by
  obtain ⟨last, hsteps, hends, hstands⟩ := hw
  cases x with
  | error e => exact ⟨last, hsteps, hends, fun b hb => by cases hb⟩
  | ok a => exact ⟨last, hsteps, hends, fun b hb => by cases hb; exact hstands a rfl⟩

end

end Workflow.Grammar
