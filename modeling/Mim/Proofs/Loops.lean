import Mim.Proofs.Step

/-! # Loops

Each loop of the grammar is bounded by the number of tokens left. A step that reads
a token each time it is repeated never reaches that bound. The loop is then the relation
that one would expect of it, with no bound: what it gives is what its rounds give one after
the other, and it fails where one of them fails.
-/

namespace Mim.Grammar

variable {α : Type} {s s' s₁ : Reading}

section Many

variable {step : Parser (Option α)}

/-- The step is repeated until it gives nothing. -/
inductive Repeats (step : Parser (Option α)) : Reading → List α → Reading → Prop where
  | stop {s s' : Reading} : step s = .ok none s' → Repeats step s [] s'
  | more {s s₁ s' : Reading} {a : α} {as : List α} :
    step s = .ok (some a) s₁ → Repeats step s₁ as s' → Repeats step s (a :: as) s'

/-- The step fails, after it has been repeated as long as it gave something. -/
inductive Breaks (step : Parser (Option α)) : Reading → ParseError → Reading → Prop where
  | fail {s s' : Reading} {e : ParseError} : step s = .error e s' → Breaks step s e s'
  | more {s s₁ s' : Reading} {a : α} {e : ParseError} :
    step s = .ok (some a) s₁ → Breaks step s₁ e s' → Breaks step s e s'

/-- Each time it gives something, the step reads a token. -/
def Advances (step : Parser (Option α)) : Prop :=
  ∀ ⦃s a s'⦄, step s = .ok (some a) s' → s'.rest.length < s.rest.length

theorem manyUpTo_ok (h : Advances step) {n : Nat} {as : List α} (hn : s.rest.length < n) :
    manyUpTo step n s = .ok as s' ↔ Repeats step s as s' := by
  induction n generalizing as s with
  | zero => exact absurd hn (Nat.not_lt_zero _)
  | succ n ih =>
      unfold manyUpTo
      rw [bind_ok]
      constructor
      · rintro ⟨_ | a, s₁, run, rest⟩
        · obtain ⟨rfl, rfl⟩ := pure_ok.1 rest
          exact .stop run
        · obtain ⟨as', s₂, tail, done⟩ := bind_ok.1 rest
          obtain ⟨rfl, rfl⟩ := pure_ok.1 done
          have length := h run
          exact .more run ((ih (by omega)).1 tail)
      · intro repeats
        cases repeats with
        | stop run => exact ⟨none, _, run, rfl⟩
        | more run rest =>
            have length := h run
            exact ⟨some _, _, run, bind_ok.2 ⟨_, _, (ih (by omega)).2 rest, rfl⟩⟩

theorem many_ok (h : Advances step) {as : List α} :
    many step s = .ok as s' ↔ Repeats step s as s' :=
  manyUpTo_ok h (Nat.lt_succ_self _)

theorem manyUpTo_error (h : Advances step) {n : Nat} {e : ParseError} (hn : s.rest.length < n) :
    manyUpTo step n s = .error e s' ↔ Breaks step s e s' := by
  induction n generalizing s with
  | zero => exact absurd hn (Nat.not_lt_zero _)
  | succ n ih =>
      unfold manyUpTo
      rw [bind_error]
      constructor
      · rintro (broken | ⟨_ | a, s₁, run, rest⟩)
        · exact .fail broken
        · cases rest
        · rcases bind_error.1 rest with broken | ⟨_, _, -, done⟩
          · have length := h run
            exact .more run ((ih (by omega)).1 broken)
          · cases done
      · intro breaks
        cases breaks with
        | fail broken => exact .inl broken
        | more run rest =>
            have length := h run
            exact .inr ⟨some _, _, run, bind_error.2 (.inl ((ih (by omega)).2 rest))⟩

theorem many_error (h : Advances step) {e : ParseError} :
    many step s = .error e s' ↔ Breaks step s e s' :=
  manyUpTo_error h (Nat.lt_succ_self _)

theorem manyUpTo_eq (h : Advances step) {n n' : Nat} (hn : s.rest.length < n)
    (hn' : s.rest.length < n') : manyUpTo step n s = manyUpTo step n' s := by
  induction n generalizing n' s with
  | zero => exact absurd hn (Nat.not_lt_zero _)
  | succ n ih =>
      obtain _ | n' := n'
      · exact absurd hn' (Nat.not_lt_zero _)
      unfold manyUpTo
      cases run : step s with
      | error e s₁ => rw [bind_of_error run, bind_of_error run]
      | ok r s₁ =>
          rw [bind_of_ok run, bind_of_ok run]
          cases r with
          | none => rfl
          | some a =>
              have length := h run
              exact bind_congr (ih (by omega) (by omega))

/-- The loop reads once, and goes on if it has read anything. -/
theorem many_run (h : Advances step) :
    many step s = (step >>= fun
      | none => pure []
      | some a => many step >>= fun as => pure (a :: as)) s := by
  change manyUpTo step (s.rest.length + 1) s = _
  unfold manyUpTo
  cases run : step s with
  | error e s₁ => rw [bind_of_error run, bind_of_error run]
  | ok r s₁ =>
      rw [bind_of_ok run, bind_of_ok run]
      cases r with
      | none => rfl
      | some a => exact bind_congr (manyUpTo_eq h (h run) (Nat.lt_succ_self _))

/-- What a marker introduces is read with the marker. -/
theorem after_advances {marker : Token} {p : Parser α}
    (h : ∀ {s a s'}, p s = .ok a s' → s'.rest.length ≤ s.rest.length) :
    Advances (after marker p) := by
  intro s a s' run
  rcases after_ok.1 run with ⟨ht, b, -, run⟩ | ⟨-, none, -⟩
  · have length := h run
    have shorter := Reading.length_advance ht
    omega
  · cases none

/-- What is read under a condition. -/
theorem optional_advances {c : Reading → Bool} {p : Parser α}
    (hstep : ∀ s : Reading, step s = (if c s then some <$> p else pure none) s)
    (h : ∀ {s a s'}, p s = .ok a s' → s'.rest.length < s.rest.length) : Advances step := by
  intro s a s' run
  rw [hstep] at run
  split at run
  · rw [map_eq_bind] at run
    obtain ⟨b, s₁, first, done⟩ := bind_ok.1 run
    obtain ⟨-, rfl⟩ := pure_ok.1 done
    exact h first
  · cases (pure_ok.1 run).1

/-- The end of a loop over what a marker introduces. -/
theorem repeats_after {marker : Token} {p : Parser α} {R : α → Prop} {I : Reading → Prop}
    (h : ∀ {s a s'}, p s = .ok a s' → R a ∧ I s') {as : List α}
    (repeats : Repeats (after marker p) s as s') :
    (∀ a ∈ as, R a) ∧ s'.token? ≠ some marker ∧ (as = [] ∧ s' = s ∨ as ≠ [] ∧ I s') := by
  induction repeats with
  | stop run =>
      rcases after_ok.1 run with ⟨-, b, none, -⟩ | ⟨ht, -, rfl⟩
      · cases none
      · exact ⟨by simp, ht, .inl ⟨rfl, rfl⟩⟩
  | more run _ ih =>
      rcases after_ok.1 run with ⟨-, b, eq, run⟩ | ⟨-, none, -⟩
      · obtain rfl := Option.some.inj eq
        obtain ⟨all, ht, last⟩ := ih
        refine ⟨List.forall_mem_cons.2 ⟨(h run).1, all⟩, ht, .inr ⟨by simp, ?_⟩⟩
        rcases last with ⟨rfl, rfl⟩ | ⟨-, last⟩
        · exact (h run).2
        · exact last
      · cases none

end Many

section CommaList

variable {close : Token} {element : Parser α}

/-- Elements are read until the closing token is seen or no comma follows. -/
inductive Commas (close : Token) (element : Parser α) : Reading → List α → Reading → Prop where
  | stop {s : Reading} : s.token? = some close → Commas close element s [] s
  | last {s s' : Reading} {a : α} :
    s.token? ≠ some close → element s = .ok a s' → s'.token? ≠ some (.symbol .comma) →
    Commas close element s [a] s'
  | more {s s₁ s' : Reading} {a : α} {as : List α} :
    s.token? ≠ some close → element s = .ok a s₁ → s₁.token? = some (.symbol .comma) →
    Commas close element s₁.advance as s' → Commas close element s (a :: as) s'

/-- An element fails, after others that have a comma each. -/
inductive CommasBreak (close : Token) (element : Parser α) :
    Reading → ParseError → Reading → Prop where
  | fail {s s' : Reading} {e : ParseError} :
    s.token? ≠ some close → element s = .error e s' → CommasBreak close element s e s'
  | more {s s₁ s' : Reading} {a : α} {e : ParseError} :
    s.token? ≠ some close → element s = .ok a s₁ → s₁.token? = some (.symbol .comma) →
    CommasBreak close element s₁.advance e s' → CommasBreak close element s e s'

theorem commaListUpTo_ok
    (h : ∀ ⦃s a s'⦄, element s = .ok a s' → s'.rest.length ≤ s.rest.length)
    {n : Nat} {as : List α} (hn : s.rest.length < n) :
    commaListUpTo close element n s = .ok as s' ↔ Commas close element s as s' := by
  induction n generalizing as s with
  | zero => exact absurd hn (Nat.not_lt_zero _)
  | succ n ih =>
      unfold commaListUpTo
      rw [sees_bind]
      by_cases hs : s.token? = some close
      · rw [show (s.token? == some close) = true by simpa using hs]
        constructor
        · intro done
          obtain ⟨rfl, rfl⟩ := pure_ok.1 done
          exact .stop hs
        · intro commas
          cases commas with
          | stop => rfl
          | last ne | more ne => exact absurd hs ne
      · rw [show (s.token? == some close) = false by simpa using hs]
        constructor
        · intro read
          obtain ⟨a, s₁, run, tail⟩ := bind_ok.1 read
          obtain ⟨b, s₂, comma, end_⟩ := bind_ok.1 tail
          rcases accept_ok.1 comma with ⟨rfl, ht, rfl⟩ | ⟨rfl, ht, rfl⟩
          · obtain ⟨as', s₃, rest, done⟩ := bind_ok.1 end_
            obtain ⟨rfl, rfl⟩ := pure_ok.1 done
            have length := h run
            have shorter := Reading.length_advance ht
            exact .more hs run ht ((ih (by omega)).1 rest)
          · obtain ⟨rfl, rfl⟩ := pure_ok.1 end_
            exact .last hs run ht
        · intro commas
          cases commas with
          | stop hc => exact absurd hc hs
          | last _ run ht =>
              exact bind_ok.2 ⟨_, _, run, bind_ok.2
                ⟨false, _, accept_ok.2 (.inr ⟨rfl, ht, rfl⟩), rfl⟩⟩
          | more _ run ht rest =>
              have length := h run
              have shorter := Reading.length_advance ht
              exact bind_ok.2 ⟨_, _, run, bind_ok.2
                ⟨true, _, accept_ok.2 (.inl ⟨rfl, ht, rfl⟩), bind_ok.2
                  ⟨_, _, (ih (by omega)).2 rest, rfl⟩⟩⟩

theorem commaList_ok (h : ∀ ⦃s a s'⦄, element s = .ok a s' → s'.rest.length ≤ s.rest.length)
    {as : List α} : commaList close element s = .ok as s' ↔ Commas close element s as s' :=
  commaListUpTo_ok h (Nat.lt_succ_self _)

theorem commaListUpTo_error
    (h : ∀ ⦃s a s'⦄, element s = .ok a s' → s'.rest.length ≤ s.rest.length)
    {n : Nat} {e : ParseError} (hn : s.rest.length < n) :
    commaListUpTo close element n s = .error e s' ↔ CommasBreak close element s e s' := by
  induction n generalizing s with
  | zero => exact absurd hn (Nat.not_lt_zero _)
  | succ n ih =>
      unfold commaListUpTo
      rw [sees_bind]
      by_cases hs : s.token? = some close
      · rw [show (s.token? == some close) = true by simpa using hs]
        constructor
        · intro done
          cases done
        · intro breaks
          cases breaks with
          | fail ne | more ne => exact absurd hs ne
      · rw [show (s.token? == some close) = false by simpa using hs]
        constructor
        · intro read
          rcases bind_error.1 read with broken | ⟨a, s₁, run, tail⟩
          · exact .fail hs broken
          · rcases bind_error.1 tail with stuck | ⟨b, s₂, comma, rest⟩
            · rw [accept_run] at stuck
              split at stuck <;> cases stuck
            · rcases accept_ok.1 comma with ⟨rfl, ht, rfl⟩ | ⟨rfl, -, rfl⟩
              · rcases bind_error.1 rest with broken | ⟨_, _, -, done⟩
                · have length := h run
                  have shorter := Reading.length_advance ht
                  exact .more hs run ht ((ih (by omega)).1 broken)
                · cases done
              · cases rest
        · intro breaks
          cases breaks with
          | fail _ broken => exact bind_error.2 (.inl broken)
          | more _ run ht rest =>
              have length := h run
              have shorter := Reading.length_advance ht
              exact bind_error.2 (.inr ⟨_, _, run, bind_error.2 (.inr
                ⟨true, _, accept_ok.2 (.inl ⟨rfl, ht, rfl⟩),
                  bind_error.2 (.inl ((ih (by omega)).2 rest))⟩)⟩)

theorem commaList_error (h : ∀ ⦃s a s'⦄, element s = .ok a s' → s'.rest.length ≤ s.rest.length)
    {e : ParseError} :
    commaList close element s = .error e s' ↔ CommasBreak close element s e s' :=
  commaListUpTo_error h (Nat.lt_succ_self _)

theorem commaListUpTo_eq
    (h : ∀ ⦃s a s'⦄, element s = .ok a s' → s'.rest.length ≤ s.rest.length) {n n' : Nat}
    (hn : s.rest.length < n) (hn' : s.rest.length < n') :
    commaListUpTo close element n s = commaListUpTo close element n' s := by
  induction n generalizing n' s with
  | zero => exact absurd hn (Nat.not_lt_zero _)
  | succ n ih =>
      obtain _ | n' := n'
      · exact absurd hn' (Nat.not_lt_zero _)
      unfold commaListUpTo
      rw [sees_bind, sees_bind]
      split
      · rfl
      · cases run : element s with
        | error e s₁ => rw [bind_of_error run, bind_of_error run]
        | ok a s₁ =>
            have length := h run
            rw [bind_of_ok run, bind_of_ok run]
            cases comma : accept (.symbol .comma) s₁ with
            | error e s₂ => rw [bind_of_error comma, bind_of_error comma]
            | ok b s₂ =>
                rw [bind_of_ok comma, bind_of_ok comma]
                rcases accept_ok.1 comma with ⟨rfl, ht, rfl⟩ | ⟨rfl, -, rfl⟩
                · have shorter := Reading.length_advance ht
                  exact bind_congr (ih (by omega) (by omega))
                · rfl

/-- What is left of a list after an element. -/
def commaListTail (close : Token) (element : Parser α) (a : α) : Parser (List α) := do
  if ← accept (.symbol .comma) then return a :: (← commaList close element) else return [a]

/-- The loop ends where it sees the closing token, and goes on after a comma. -/
theorem commaList_run (h : ∀ ⦃s a s'⦄, element s = .ok a s' → s'.rest.length ≤ s.rest.length) :
    commaList close element s =
      if s.token? = some close then .ok [] s
      else (element >>= commaListTail close element) s := by
  change commaListUpTo close element (s.rest.length + 1) s = _
  unfold commaListUpTo
  rw [sees_bind]
  by_cases hs : s.token? = some close
  · simp only [hs, beq_self_eq_true, if_true]
    rfl
  · rw [if_neg hs, show (s.token? == some close) = false by simpa using hs]
    change (element >>= _) s = _
    cases run : element s with
    | error e s₁ => rw [bind_of_error run, bind_of_error run]
    | ok a s₁ =>
        have length := h run
        rw [bind_of_ok run, bind_of_ok run]
        unfold commaListTail
        cases comma : accept (.symbol .comma) s₁ with
        | error e s₂ => rw [bind_of_error comma, bind_of_error comma]
        | ok b s₂ =>
            rw [bind_of_ok comma, bind_of_ok comma]
            rcases accept_ok.1 comma with ⟨rfl, ht, rfl⟩ | ⟨rfl, -, rfl⟩
            · have shorter := Reading.length_advance ht
              exact bind_congr (commaListUpTo_eq h (by omega) (Nat.lt_succ_self _))
            · rfl

/-- Elements divided by commas, and the closing token after them. -/
def listed (close : Token) (element : Parser α) : Parser (List α) := do
  let as ← commaList close element
  expect close
  return as

/-- What is left of a list after an element, and the closing token after it. -/
def listedTail (close : Token) (element : Parser α) (a : α) : Parser (List α) := do
  if ← accept (.symbol .comma) then return a :: (← listed close element)
  else
    expect close
    return [a]

theorem listed_stop (h : s.token? = some close) : listed close element s = .ok [] s.advance := by
  have stop : commaList close element s = .ok [] s := by
    change commaListUpTo close element (s.rest.length + 1) s = _
    unfold commaListUpTo
    rw [sees_bind, h, beq_self_eq_true]
    rfl
  unfold listed
  rw [bind_of_ok stop, bind_of_ok (expect_ok.2 ⟨h, rfl⟩)]
  rfl

theorem listedTail_comma {a : α} (h : s.token? = some (.symbol .comma)) :
    listedTail close element a s = (expect (.symbol .comma) >>= fun _ =>
      listed close element >>= fun as => pure (a :: as)) s := by
  unfold listedTail
  rw [bind_of_ok (accept_ok.2 (.inl ⟨rfl, h, rfl⟩)), bind_of_ok (expect_ok.2 ⟨h, rfl⟩)]
  rfl

theorem listedTail_close {a : α} (h : s.token? ≠ some (.symbol .comma)) :
    listedTail close element a s = (expect close >>= fun _ => pure [a]) s := by
  unfold listedTail
  rw [bind_of_ok (accept_ok.2 (.inr ⟨rfl, h, rfl⟩))]
  rfl

theorem listed_run (h : ∀ ⦃s a s'⦄, element s = .ok a s' → s'.rest.length ≤ s.rest.length) :
    listed close element s =
      if s.token? = some close then .ok [] s.advance
      else (element >>= listedTail close element) s := by
  have tail : ∀ a, (commaListTail close element a >>= fun as => expect close >>= fun _ => pure as) =
      listedTail close element a := by
    intro a
    unfold commaListTail listedTail listed
    rw [bind_assoc]
    congr 1
    funext b
    cases b <;> simp
  by_cases hs : s.token? = some close
  · rw [if_pos hs, listed_stop hs]
  · unfold listed
    have go : commaList close element s = (element >>= commaListTail close element) s := by
      rw [commaList_run h, if_neg hs]
    rw [if_neg hs, bind_congr go, bind_assoc]
    simp only [tail]

end CommaList

section Grow

variable {step : α → Parser (Option α)}

/-- The step is repeated on its own result until it gives nothing. -/
inductive Grows (step : α → Parser (Option α)) : α → Reading → α → Reading → Prop where
  | stop {a : α} {s s' : Reading} : step a s = .ok none s' → Grows step a s a s'
  | more {a b c : α} {s s₁ s' : Reading} :
    step a s = .ok (some b) s₁ → Grows step b s₁ c s' → Grows step a s c s'

/-- The step fails, after it has been repeated on its own result. -/
inductive GrowthBreaks (step : α → Parser (Option α)) :
    α → Reading → ParseError → Reading → Prop where
  | fail {a : α} {s s' : Reading} {e : ParseError} :
    step a s = .error e s' → GrowthBreaks step a s e s'
  | more {a b : α} {s s₁ s' : Reading} {e : ParseError} :
    step a s = .ok (some b) s₁ → GrowthBreaks step b s₁ e s' → GrowthBreaks step a s e s'

theorem growUpTo_ok (h : ∀ a, Advances (step a)) {n : Nat} {a c : α}
    (hn : s.rest.length < n) : growUpTo step n a s = .ok c s' ↔ Grows step a s c s' := by
  induction n generalizing a s with
  | zero => exact absurd hn (Nat.not_lt_zero _)
  | succ n ih =>
      unfold growUpTo
      rw [bind_ok]
      constructor
      · rintro ⟨_ | b, s₁, run, rest⟩
        · obtain ⟨rfl, rfl⟩ := pure_ok.1 rest
          exact .stop run
        · have length := h a run
          exact .more run ((ih (by omega)).1 rest)
      · intro grows
        cases grows with
        | stop run => exact ⟨none, _, run, rfl⟩
        | more run rest =>
            have length := h a run
            exact ⟨some _, _, run, (ih (by omega)).2 rest⟩

theorem grow_ok (h : ∀ a, Advances (step a)) {a c : α} :
    grow step a s = .ok c s' ↔ Grows step a s c s' :=
  growUpTo_ok h (Nat.lt_succ_self _)

theorem growUpTo_error (h : ∀ a, Advances (step a)) {n : Nat} {a : α} {e : ParseError}
    (hn : s.rest.length < n) :
    growUpTo step n a s = .error e s' ↔ GrowthBreaks step a s e s' := by
  induction n generalizing a s with
  | zero => exact absurd hn (Nat.not_lt_zero _)
  | succ n ih =>
      unfold growUpTo
      rw [bind_error]
      constructor
      · rintro (broken | ⟨_ | b, s₁, run, rest⟩)
        · exact .fail broken
        · cases rest
        · have length := h a run
          exact .more run ((ih (by omega)).1 rest)
      · intro breaks
        cases breaks with
        | fail broken => exact .inl broken
        | more run rest =>
            have length := h a run
            exact .inr ⟨some _, _, run, (ih (by omega)).2 rest⟩

theorem grow_error (h : ∀ a, Advances (step a)) {a : α} {e : ParseError} :
    grow step a s = .error e s' ↔ GrowthBreaks step a s e s' :=
  growUpTo_error h (Nat.lt_succ_self _)

theorem growUpTo_eq (h : ∀ a, Advances (step a)) {n n' : Nat} {a : α}
    (hn : s.rest.length < n) (hn' : s.rest.length < n') :
    growUpTo step n a s = growUpTo step n' a s := by
  induction n generalizing n' a s with
  | zero => exact absurd hn (Nat.not_lt_zero _)
  | succ n ih =>
      obtain _ | n' := n'
      · exact absurd hn' (Nat.not_lt_zero _)
      unfold growUpTo
      cases run : step a s with
      | error e s₁ => rw [bind_of_error run, bind_of_error run]
      | ok r s₁ =>
          rw [bind_of_ok run, bind_of_ok run]
          cases r with
          | none => rfl
          | some b =>
              have length := h a run
              exact ih (by omega) (by omega)

/-- The loop takes the step once, and goes on from what it gives. -/
theorem grow_run (h : ∀ a, Advances (step a)) {a : α} :
    grow step a s = (step a >>= fun
      | none => pure a
      | some b => grow step b) s := by
  change growUpTo step (s.rest.length + 1) a s = _
  unfold growUpTo
  cases run : step a s with
  | error e s₁ => rw [bind_of_error run, bind_of_error run]
  | ok r s₁ =>
      rw [bind_of_ok run, bind_of_ok run]
      cases r with
      | none => rfl
      | some b => exact growUpTo_eq h (h a run) (Nat.lt_succ_self _)

end Grow

end Mim.Grammar
