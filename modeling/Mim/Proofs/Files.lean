import Mim.Proofs.Loops
import Mim.Proofs.Progress

/-! # A file is always read to its end

Each part of a file recovers from its own errors, so reading a file never fails, and no
token is left over.
-/

namespace Mim.Grammar

/-- A step that never fails. -/
def Total {α : Type} (p : Parser α) : Prop := ∀ s, ∃ a s', p s = .ok a s'

namespace Total

variable {α β : Type}

theorem pure (a : α) : Total (Pure.pure a) := fun s => ⟨a, s, rfl⟩

theorem bind {p : Parser α} {f : α → Parser β} (hp : Total p) (hf : ∀ a, Total (f a)) :
    Total (p >>= f) := by
  intro s
  obtain ⟨a, s₁, first⟩ := hp s
  obtain ⟨b, s', rest⟩ := hf a s₁
  exact ⟨b, s', bind_ok.2 ⟨a, s₁, first, rest⟩⟩

theorem some_map {p : Parser α} (h : Total p) : Total (some <$> p) := by
  rw [map_eq_bind]
  exact h.bind fun a => pure (some a)

theorem recovering (inWhere : Bool) (p : Parser α) : Total (Grammar.recovering inWhere p) := by
  intro s
  cases run : p s with
  | ok a s' => exact ⟨_, _, recovering_ok run⟩
  | error e s' => exact ⟨_, _, recovering_error run⟩

theorem declarationOrError (inWhere : Bool) (p : Parser Decl) :
    Total (Grammar.declarationOrError inWhere p) := by
  refine (recovering inWhere p).bind fun r => ?_
  cases r with
  | ok d => exact pure d
  | error place => exact pure _

theorem many {step : Parser (Option α)} (h : Total step) : Total (Grammar.many step) := by
  suffices upTo : ∀ n, Total (manyUpTo step n) from fun s => upTo _ s
  intro n
  induction n with
  | zero => exact pure []
  | succ n ih =>
      refine h.bind fun r => ?_
      cases r with
      | none => exact pure []
      | some a => exact ih.bind fun as => pure (a :: as)

theorem dependencies : Total Grammar.dependencies := by
  refine (many fun s => ?_).bind fun parts => pure _
  rw [bind_of_ok dependencyAhead_run]
  cases s.token?.any startsDependency with
  | true => exact (recovering false dependency).some_map s
  | false => exact pure none s

theorem declarations (g : Nested) : Total (Grammar.declarations g) := by
  refine many fun s => ?_
  rw [peek_bind]
  cases s.token? with
  | none => exact pure none s
  | some t => exact (declarationOrError false (fileDeclaration g)).some_map s

end Total

variable {g : Nested} {s s' : Reading}

/-- A declaration, if there is anything left at all. -/
def declaration? (g : Nested) : Parser (Option Decl) := do
  match ← peek with
  | none => return none
  | some _ => some <$> declarationOrError false (fileDeclaration g)

theorem declarations_eq (g : Nested) : declarations g = many (declaration? g) := rfl

theorem declaration?_run (g : Nested) (s : Reading) : declaration? g s =
    (if s.token?.isSome then some <$> declarationOrError false (fileDeclaration g)
    else pure none) s := by
  unfold declaration?
  rw [peek_bind]
  cases s.token? <;> rfl

theorem declaration?_onward (hg : ∀ {σ : Simulation} {n : Nat}, σ.Nests n g g) {d : Decl}
    (run : declaration? g s = .ok (some d) s') : s.Onward 1 s' := by
  rw [declaration?_run] at run
  split at run
  · next some =>
      rw [map_eq_bind] at run
      obtain ⟨d, s₁, first, done⟩ := bind_ok.1 run
      obtain ⟨-, rfl⟩ := pure_ok.1 done
      have inStep : (Simulation.onward s).InStep (·.isSome) 1 (s.rest.length + 1)
          (declarationOrError false (fileDeclaration g))
          (declarationOrError false (fileDeclaration g)) :=
        declarationOrError_inStep (fileDeclaration_inStep hg) fun t h => by
          rintro rfl
          cases h
      exact inStep.onward some first
  · cases (pure_ok.1 run).1

theorem declaration?_advances (hg : ∀ {σ : Simulation} {n : Nat}, σ.Nests n g g) :
    Advances (declaration? g) := fun _ _ _ run => (declaration?_onward hg run).length

theorem declarations_onward (hg : ∀ {σ : Simulation} {n : Nat}, σ.Nests n g g) {ds : List Decl}
    (repeats : Repeats (declaration? g) s ds s') : s.Onward 0 s' := by
  have run := (many_ok (declaration?_advances hg)).2 repeats
  exact (declarations_inStep (σ := .onward s) (m := s.rest.length) hg).onward trivial run

/-- There is no declaration where nothing is left. -/
theorem declaration?_stop (run : declaration? g s = .ok none s') : s.rest = [] ∧ s' = s := by
  rw [declaration?_run] at run
  split at run
  · rw [map_eq_bind] at run
    obtain ⟨_, _, -, done⟩ := bind_ok.1 run
    cases (pure_ok.1 done).1
  · next none =>
      obtain ⟨-, rfl⟩ := pure_ok.1 run
      exact ⟨Reading.token?_eq_none.1 (by simpa using none), rfl⟩

/-- Declarations are read until nothing is left. -/
theorem declarations_rest (hg : ∀ {σ : Simulation} {n : Nat}, σ.Nests n g g) {ds : List Decl}
    (run : declarations g s = .ok ds s') : s'.rest = [] := by
  rw [declarations_eq] at run
  have repeats := (many_ok (declaration?_advances hg)).1 run
  clear run
  induction repeats with
  | stop stop =>
      obtain ⟨rest, rfl⟩ := declaration?_stop stop
      exact rest
  | more _ _ ih => exact ih

/-- A file is read, and all of it. -/
theorem file_read (hg : ∀ {σ : Simulation} {n : Nat}, σ.Nests n g g) (s : Reading) :
    ∃ f s', file g s = .ok f s' ∧ s'.rest = [] := by
  obtain ⟨deps, s₁, early⟩ := Total.dependencies s
  obtain ⟨ds, s', late⟩ := Total.declarations g s₁
  refine ⟨⟨deps, ds, s'.spanFrom s.span.start⟩, s', ?_, declarations_rest hg late⟩
  refine bind_ok.2 ⟨((deps, ds), s'.spanFrom s.span.start), s', located_ok.2 ⟨?_, rfl⟩, rfl⟩
  exact bind_ok.2 ⟨deps, s₁, early, bind_ok.2 ⟨ds, s', late, rfl⟩⟩

end Mim.Grammar

/-- What is read as a file. -/
theorem Mim.Reading.file_eq {s s' : Reading} {f : File} (run : Grammar.file s.nested s = .ok f s') :
    s.file = (f, s') := by
  unfold file
  rw [run]

/-- Readings in step have the same file, spans aside, and are in step behind it. -/
theorem Mim.Simulation.file_eq {σ : Simulation} {s u : Reading} (h : σ.rel s u) :
    u.file.1 = respan σ.move s.file.1 ∧ σ.rel s.file.2 u.file.2 := by
  have inStep : σ.InStep Simulation.Anywhere 0 (s.rest.length + 1) (Grammar.file Nested.full)
    (Grammar.file Nested.full) := Grammar.file_inStep Nested.nests_full_self
  have agree := inStep s u h trivial (Nat.lt_succ_self _)
  obtain ⟨f, s', run, -⟩ := Grammar.file_read (g := Nested.full) Nested.nests_full_self s
  obtain ⟨f', u', run', -⟩ := Grammar.file_read (g := Nested.full) Nested.nests_full_self u
  rw [run, run'] at agree
  obtain ⟨same, rel, -⟩ := agree
  rw [Nested.file_full] at run run'
  rw [Reading.file_eq run, Reading.file_eq run']
  exact ⟨same, rel⟩
