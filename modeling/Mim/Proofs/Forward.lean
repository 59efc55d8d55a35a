import Mathlib.Logic.Relation
import Mim.Proofs.Spells.Files
import Mim.Proofs.Spells.Where

/-! # A reading only goes forward

A run is a chain of moves, and none of them goes back. Every rule that reads a dependency,
a declaration, an expression or a binder reads a token at least, and so does every round of
every loop, those included that go on after an error. So no loop ends because of its bound:
each is a loop without one. Nor does the recursion: whatever would be read deeper than there
are tokens, nothing is. A file is read to its end.
-/

namespace Mim

open Simulation (Anywhere InStep)
open Grammar (Repeats Breaks Commas CommasBreak Grows GrowthBreaks Advances Total)

variable {α : Type} {k m n : Nat} {s s' s₁ : Reading}

/-- One move of a reading: it reads a token, or records something where it stands. -/
inductive Reading.Move (s : Reading) : Reading → Prop where
  | advance : Move s s.advance
  | note (rule : TieBreak) (place : Span) : Move s (s.note rule place)
  | report (e : ParseError) : Move s (s.report e)

/-- A chain of moves from one reading to another. -/
def Reading.Leads : Reading → Reading → Prop := Relation.ReflTransGen Reading.Move

/-- What a move leaves was left before it. -/
theorem Reading.Move.rest (h : s.Move s') : s'.rest <:+ s.rest := by
  cases h with
  | advance =>
      cases hs : s.rest with
      | nil => simp [advance_end hs, hs]
      | cons i rest => simp [advance_eq hs]
  | note rule place => simp [rest_note]
  | report e => simp [rest_report]

theorem Reading.Leads.rest (h : s.Leads s') : s'.rest <:+ s.rest := by
  induction h with
  | refl => exact List.suffix_refl _
  | tail _ last ih => exact last.rest.trans ih

/-- Readings that are the same and that moves from `start` lead to. -/
def Simulation.moving (start : Reading) : Simulation where
  move := .id
  rel s u := u = s ∧ start.Leads s
  marks _ := True
  bare := by rintro s _ ⟨rfl, -⟩; rfl
  span_eq := by rintro s _ ⟨rfl, -⟩; rfl
  spanFrom_eq := by rintro s _ ⟨rfl, -⟩ place; rfl
  marks_span _ _ _ := trivial
  rel_advance := by
    rintro s _ ⟨rfl, leads⟩
    exact ⟨rfl, leads.tail .advance⟩
  rel_note := by
    rintro s _ ⟨rfl, leads⟩ rule place -
    exact ⟨rfl, leads.tail (.note rule place)⟩
  rel_report := by
    rintro s _ ⟨rfl, leads⟩ e -
    exact ⟨rfl, leads.tail (.report e)⟩

section Steps

variable [Spanned α] {P : Option Token → Prop} {p : Parser α} {a : α} {e : ParseError}

theorem Simulation.InStep.leads (h : (Simulation.moving s).InStep P k (s.rest.length + 1) p p)
    (hs : P s.token?) (run : p s = .ok a s') :
    s.Leads s' ∧ s'.rest.length + k ≤ s.rest.length := by
  have agree := h s s ⟨rfl, .refl⟩ hs (Nat.lt_succ_self _)
  rw [run] at agree
  exact ⟨agree.2.1.2, agree.2.2⟩

theorem Simulation.InStep.leads_error
    (h : (Simulation.moving s).InStep P k (s.rest.length + 1) p p) (hs : P s.token?)
    (run : p s = .error e s') : s.Leads s' := by
  have agree := h s s ⟨rfl, .refl⟩ hs (Nat.lt_succ_self _)
  rw [run] at agree
  exact agree.2.1.2

end Steps

namespace Grammar

/-- A step that only moves on, whether it succeeds or fails, and that has read at least `k`
    tokens where it succeeds. -/
structure Forward (k : Nat) (p : Parser α) : Prop where
  ok {s s' : Reading} {a : α} : p s = .ok a s' → s.Leads s' ∧ s'.rest.length + k ≤ s.rest.length
  error {s s' : Reading} {e : ParseError} : p s = .error e s' → s.Leads s'

theorem Forward.of_inStep [Spanned α] {p : Parser α}
    (h : ∀ {σ : Simulation} {m : Nat}, σ.InStep Anywhere k (m + 1) p p) : Forward k p where
  ok run := h.leads trivial run
  error run := h.leads_error trivial run

/-- A step repeated while it gives something, with no bound: each time it reads a token, and
    the whole fails only where the step does. -/
structure Repeating (step : Parser (Option α)) : Prop where
  forward : Forward 0 step
  advances : Advances step
  ok {s s' : Reading} {as : List α} : many step s = .ok as s' ↔ Repeats step s as s'
  error {s s' : Reading} {e : ParseError} : many step s = .error e s' ↔ Breaks step s e s'

/-- Elements divided by commas, with no bound: each reads a token, and the whole fails only
    where one of them does. -/
structure Listing (close : Token) (element : Parser α) : Prop where
  forward : Forward 1 element
  ok {s s' : Reading} {as : List α} :
    commaList close element s = .ok as s' ↔ Commas close element s as s'
  error {s s' : Reading} {e : ParseError} :
    commaList close element s = .error e s' ↔ CommasBreak close element s e s'

/-- A step repeated on its own result, with no bound: each time it reads a token, and the
    whole fails only where the step does. -/
structure Growing (step : α → Parser (Option α)) : Prop where
  forward (a : α) : Forward 0 (step a)
  advances (a : α) : Advances (step a)
  ok {a b : α} {s s' : Reading} : grow step a s = .ok b s' ↔ Grows step a s b s'
  error {a : α} {s s' : Reading} {e : ParseError} :
    grow step a s = .error e s' ↔ GrowthBreaks step a s e s'

theorem Repeating.of_inStep [Spanned α] {step : Parser (Option α)} (advances : Advances step)
    (h : ∀ {σ : Simulation} {m : Nat}, σ.InStep Anywhere 0 (m + 1) step step) : Repeating step where
  forward := .of_inStep h
  advances := advances
  ok := many_ok advances
  error := many_error advances

/-- What is repeated behind a marker is read with the marker. -/
theorem Repeating.of_after [Spanned α] {marker : Token} {p : Parser α}
    (h : ∀ {σ : Simulation} {m : Nat}, σ.InStep Anywhere 1 (m + 1) p p) :
    Repeating (after marker p) :=
  .of_inStep (after_advances fun run => Nat.le_of_succ_le ((Forward.of_inStep h).ok run).2)
    (after_inStep h)

theorem Listing.of_inStep [Spanned α] {close : Token} {element : Parser α}
    (h : ∀ {σ : Simulation} {m : Nat}, σ.InStep Anywhere 1 (m + 1) element element) :
    Listing close element := by
  have forward : Forward 1 element := .of_inStep h
  have shorter : ∀ ⦃s a s'⦄, element s = .ok a s' → s'.rest.length ≤ s.rest.length :=
    fun _ _ _ run => Nat.le_of_succ_le (forward.ok run).2
  exact ⟨forward, commaList_ok shorter, commaList_error shorter⟩

/-- A loop that never fails: each round either ends it where it is, or leads on to a later
    token. -/
structure Loop (step : Parser (Option α)) : Prop where
  round (s : Reading) : step s = .ok none s ∨
    ∃ a s', step s = .ok (some a) s' ∧ s.Leads s' ∧ s'.rest.length < s.rest.length
  whole (s : Reading) : ∃ as s', many step s = .ok as s' ∧ Repeats step s as s'

theorem Loop.of_rounds {step : Parser (Option α)} (round : ∀ s, step s = .ok none s ∨
    ∃ a s', step s = .ok (some a) s' ∧ s.Leads s' ∧ s'.rest.length < s.rest.length) : Loop step where
  round := round
  whole s := by
    have total : Total step := by
      intro s
      rcases round s with stop | ⟨a, s', go, -, -⟩
      · exact ⟨none, s, stop⟩
      · exact ⟨some a, s', go⟩
    have advances : Grammar.Advances step := by
      intro s b s' run
      rcases round s with stop | ⟨a, s₁, go, -, shorter⟩
      · rw [stop] at run
        cases run
      · rw [go] at run
        cases run
        exact shorter
    obtain ⟨as, s', run⟩ := total.many s
    exact ⟨as, s', run, (many_ok advances).1 run⟩

/-- A round that reads what is there under a condition. -/
theorem Loop.of_optional [Spanned α] {P : Option Token → Prop} {step : Parser (Option α)}
    {p : Parser α} {c : Reading → Bool}
    (hstep : ∀ s : Reading, step s = (if c s then some <$> p else pure none) s)
    (hc : ∀ s, c s → P s.token?) (total : Total p)
    (h : ∀ {σ : Simulation} {m : Nat}, σ.InStep P 1 (m + 1) p p) : Loop step := by
  apply Loop.of_rounds
  intro s
  rw [hstep]
  split
  · next ahead =>
      obtain ⟨a, s', run⟩ := total s
      have ⟨leads, length⟩ := h.leads (hc s ahead) run
      exact .inr ⟨a, s', by rw [map_eq_bind, bind_of_ok run]; rfl, leads, length⟩
  · exact .inl rfl

/-- Every loop inside a declaration, an expression or a name ends by itself. An expression is
    an operand and then such a loop. -/
structure LoopsEnd (g : Nested) : Prop where
  names : Repeating identifier?
  aliases : Repeating (after (.symbol .assign) identifier)
  subtags : Listing (.symbol .rightParen) subtag
  elements (bracket : Bracket) : Listing bracket.close (element g bracket)
  params : Repeating (param? g)
  recBindings : Repeating (nextRecBinding? g)
  blockDeclarations : Repeating (blockDeclaration? g)
  domains : Repeating (domain? g)
  patterns : Repeating (pattern? g)
  arms : Repeating (after (.symbol .pipe) (arm g))
  variants : Repeating (after (.symbol .union) (infixForm.right g .union))
  exprs (close : Token) : Listing close (anyExpr g)
  operators (least : Prec) :
    expr g least = (operand g least >>= grow (extend? g least)) ∧ Growing (extend? g least)

/-- The rules that read a whole part of a file only go forward, and so do the loops that
    go on after an error. -/
structure GoesForward (g : Nested) : Prop where
  dependency : Forward 1 dependency
  declaration : Forward 1 (declaration g)
  expr (least : Prec) : Forward 1 (expr g least)
  pattern : Forward 1 (pattern g)
  battern (least : Prec) : Forward 1 (battern g least)
  group : Forward 1 (group g)
  domain : Forward 1 (domain g)
  dependencies : ∃ step : Parser (Option (Except Span Dependency)), Grammar.dependencies =
    (many step >>= fun parts => pure (parts.filterMap Except.toOption)) ∧ Loop step
  declarations : ∃ step, declarations g = many step ∧ Loop step
  whereBody : ∃ step, whereBody g = (many step >>= fun parts =>
    expect (.keyword .end_) >>= fun _ => pure (parts.filterMap id)) ∧ Loop step

theorem dependency?_loop : Loop dependency? := by
  have run (s : Reading) : dependency? s = (if s.token?.any startsDependency then
      some <$> recovering false dependency else pure none) s := by
    rw [dependency?_run, startsDependency_look]
  refine Loop.of_optional (P := (· ≠ none)) run (fun s ahead none => ?_)
    (Total.recovering false dependency) (recovering_inStep dependency_inStep fun _ h => h)
  rw [none] at ahead
  cases ahead

section Rules

variable {g : Nested} (hg : ∀ {σ : Simulation} {n : Nat}, σ.Nests n g g)
include hg

theorem declaration?_loop : Loop (declaration? g) := by
  refine Loop.of_optional (P := (· ≠ none)) (declaration?_run g) (fun s ahead none => ?_)
    (Total.declarationOrError false (fileDeclaration g))
    (declarationOrError_inStep (fileDeclaration_inStep hg) fun _ h => h)
  rw [none] at ahead
  cases ahead

theorem wherePart?_loop : Loop (wherePart? g) := by
  apply Loop.of_rounds
  intro s
  cases hs : s.token? with
  | none => exact .inl (wherePart?_end (.inl hs))
  | some t =>
      by_cases apart : t = .symbol .semicolon
      · subst apart
        refine .inr ⟨none, s.advance, wherePart?_semicolon hs, .single .advance, ?_⟩
        have length := Reading.length_advance hs
        omega
      · by_cases inside : t = .keyword .end_
        · subst inside
          exact .inl (wherePart?_end (.inr hs))
        · obtain ⟨d, s', run⟩ := Total.declarationOrError true (declaration g) s
          have inStep : (Simulation.moving s).InStep (· ≠ none) 1 (s.rest.length + 1)
              (declarationOrError true (declaration g)) (declarationOrError true (declaration g)) :=
            declarationOrError_inStep (declaration_inStep hg) fun _ h => h
          have ⟨leads, length⟩ := inStep.leads (by simp [hs]) run
          refine .inr ⟨some d, s', ?_, leads, length⟩
          rw [wherePart?_declaration hs apart inside, bind_of_ok run]
          rfl

theorem goesForward : GoesForward g where
  dependency := .of_inStep dependency_inStep
  declaration := .of_inStep (declaration_inStep hg)
  expr least := .of_inStep (expr_inStep hg least)
  pattern := .of_inStep (pattern_inStep hg)
  battern least := .of_inStep (battern_inStep hg least)
  group := .of_inStep (group_inStep hg)
  domain := .of_inStep (domain_inStep hg)
  dependencies := ⟨_, rfl, dependency?_loop⟩
  declarations := ⟨_, declarations_eq g, declaration?_loop hg⟩
  whereBody := ⟨_, rfl, wherePart?_loop hg⟩

theorem extend?_forward (least : Prec) (lhs : Expr) : Forward 0 (extend? g least lhs) := by
  have inStep (s : Reading) : (Simulation.moving s).InStep Anywhere 0 (s.rest.length + 1)
      (extend? g least lhs) (extend? g least (respan (Simulation.moving s).move lhs)) :=
    extend?_inStep hg least lhs
  have same (s : Reading) : respan (Simulation.moving s).move lhs = lhs := Spanned.respan_id lhs
  simp only [same] at inStep
  exact ⟨(inStep _).leads trivial, (inStep _).leads_error trivial⟩

theorem operators_end (least : Prec) : Growing (extend? g least) where
  forward := extend?_forward hg least
  advances _ := extend?_advances hg
  ok := grow_ok fun _ => extend?_advances hg
  error := grow_error fun _ => extend?_advances hg

theorem loopsEnd : LoopsEnd g where
  names := .of_inStep identifier?_advances identifier?_inStep
  aliases := .of_after identifier_inStep
  subtags := .of_inStep subtag_inStep
  elements bracket := .of_inStep (element_inStep hg bracket)
  params := .of_inStep (param?_advances hg) (param?_inStep hg)
  recBindings := .of_inStep (nextRecBinding?_advances hg) (nextRecBinding?_inStep hg)
  blockDeclarations := .of_inStep (blockDeclaration?_advances hg) (blockDeclaration?_inStep hg)
  domains := .of_inStep (domain?_advances hg) (domain?_inStep hg)
  patterns := .of_inStep (pattern?_advances hg) (pattern?_inStep hg)
  arms := .of_after (arm_inStep hg)
  variants := .of_after (hg.expr Operator.union.rightMin)
  exprs _ := .of_inStep (hg.expr .bottom)
  operators least := ⟨rfl, operators_end hg least⟩

end Rules

/-- However forms are read that are nested deeper than there are tokens, it makes no
    difference to a file. -/
theorem file_deeper (s : Reading) (g : Nested) (n : Nat) :
    file (Nested.deeper^[s.rest.length + n] g) s = file s.nested s := by
  rw [Reading.nested, Nested.upTo_eq]
  have nests : (Simulation.onward s).Nests s.rest.length (Nested.deeper^[s.rest.length + n] g)
      (Nested.deeper^[s.rest.length + 1] Nested.none_) :=
    nests_deeper (Nat.le_add_right _ _) (Nat.le_succ _)
  exact InStep.run_eq (P := Anywhere) trivial (file_inStep nests)

/-- Every reading is read as a file to its end, by moves that never go back. Each rule and
    each round of a loop goes forward, however deep it is nested, and neither the bound of a
    loop nor what stands for forms nested deeper than there are tokens makes a difference. -/
theorem file_goes_forward :
    (∀ s s' : Reading, s.Move s' → s'.rest <:+ s.rest) ∧
    (∀ s : Reading, ∃ f s', file s.nested s = .ok f s' ∧ s.file = (f, s') ∧ s.Leads s' ∧
      s'.rest = []) ∧
    (∀ (s : Reading) (g : Nested) (n : Nat),
      file (Nested.deeper^[s.rest.length + n] g) s = file s.nested s) ∧
    ∀ n : Nat, GoesForward (Nested.upTo n) ∧ LoopsEnd (Nested.upTo n) := by
  refine ⟨fun s s' move => move.rest, fun s => ?_, file_deeper, fun n => ?_⟩
  · obtain ⟨f, s', run, rest⟩ := file_read (g := s.nested) nests_self s
    exact ⟨f, s', run, Reading.file_eq run, ((file_inStep nests_self).leads trivial run).1, rest⟩
  · exact ⟨goesForward nests_self, loopsEnd nests_self⟩

end Grammar

end Mim
