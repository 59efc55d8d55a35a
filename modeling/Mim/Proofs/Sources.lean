import Mim.Proofs.Files
import Mim.Proofs.Lexing.Parts
import Mim.Proofs.Spells
import Mim.Proofs.StableOrder

/-! # What a text has to report

The errors of a text are its broken tokens and what the grammar reports, each in the order
of where it starts. A text without errors is read from start to end by a clean run.
-/

namespace Mim

open Grammar

namespace Diagnostic

/-- Diagnostics that all stand further on keep their order. -/
theorem sort_further (f : Change) (mono : ∀ a b : Span, (f a).start ≤ (f b).start ↔ a.start ≤ b.start)
    (ds : List Diagnostic) : sort (respan f ds) = respan f (sort ds) := by
  rw [sort_eq_insertionSort, sort_eq_insertionSort]
  refine (List.map_insertionSort StartsBy StartsBy (respan f) ds fun d _ e _ => ?_).symm
  exact (mono d.span e.span).symm

theorem sort_eq_nil {ds : List Diagnostic} (h : sort ds = []) : ds = [] := by
  have perm := sort_perm ds
  rw [h] at perm
  exact perm.nil_eq.symm

end Diagnostic

/-- The errors of a lexeme: one if it is broken text. -/
def Lexeme.errors (x : Lexeme) : List Diagnostic :=
  match x.token with
  | .error reason => [⟨.lexical reason, x.span⟩]
  | _ => []

theorem Lexeme.filter_diagnostics (x : Lexeme) : x.diagnostics.filter Diagnostic.isError = x.errors := by
  have note : (if x.beforeMember then [⟨.tieBreak .integerBeforeMember, x.span⟩] else [] :
      List Diagnostic).filter Diagnostic.isError = [] := by
    split <;> rfl
  simp only [diagnostics, errors]
  cases x.token with
  | error reason =>
      rw [List.filter_append, note]
      rfl
  | _ => exact note

theorem Lexeme.AreClean.errors {xs : List Lexeme} (h : AreClean xs) : xs.flatMap Lexeme.errors = [] := by
  refine List.flatMap_eq_nil_iff.2 fun x hx => ?_
  unfold Lexeme.errors
  split
  · next reason token => exact absurd token (h x hx reason)
  · rfl

namespace Source

open Nested (full)

variable {text : String}

theorem filter_lexical (text : String) :
    (lexical text).filter Diagnostic.isError = (lexemes text).flatMap Lexeme.errors := by
  rw [lexical, List.filter_flatMap]
  exact congrArg (List.flatMap · _) (funext Lexeme.filter_diagnostics)

/-- The errors of a text: what is broken in it, and what the grammar reports. -/
theorem errors_ofText (text : String) : (ofText text).errors =
    Diagnostic.sort ((lexemes text).flatMap Lexeme.errors ++
      Diagnostic.sort ((reading text).file.2.recorded.filter Diagnostic.isError).reverse) := by
  change (Diagnostic.sort (lexical text ++ Diagnostic.sort (reading text).file.2.diagnostics)).filter
    Diagnostic.isError = _
  rw [Diagnostic.filter_sort, List.filter_append, filter_lexical, Diagnostic.filter_sort,
    Reading.diagnostics, List.filter_reverse]

/-- A text has no errors where there is no broken text and nothing wrong is recorded. -/
theorem errors_eq_nil : (ofText text).errors = [] ↔
    Lexeme.AreClean (lexemes text) ∧ (reading text).file.2.recorded.filter Diagnostic.isError = [] := by
  rw [errors_ofText]
  constructor
  · intro h
    obtain ⟨broken, wrong⟩ := List.append_eq_nil_iff.1 (Diagnostic.sort_eq_nil h)
    refine ⟨fun x hx reason token => ?_, List.reverse_eq_nil_iff.1 (Diagnostic.sort_eq_nil wrong)⟩
    have none := List.flatMap_eq_nil_iff.1 broken x hx
    rw [Lexeme.errors, token] at none
    cases none
  · rintro ⟨clean, recorded⟩
    rw [clean.errors, recorded]
    rfl

theorem hasErrors_eq_false : (ofText text).hasErrors = false ↔ (ofText text).errors = [] := by
  unfold hasErrors errors Diagnostic.hasErrors
  rw [List.filter_eq_nil_iff, List.any_eq_false]

theorem file_ofText (text : String) : (ofText text).file = (reading text).file.1 := rfl

end Source

namespace Grammar

open Nested (full)

/-- What stands in a file. -/
def fileParts (g : Nested) : Parser (List Dependency × List Decl) := do
  let dependencies ← dependencies
  return (dependencies, ← declarations g)

/-- A file is what stands in it, with the span of all that is read. -/
theorem file_ok {g : Nested} {f : File} {s s' : Reading} : file g s = .ok f s' ↔
    fileParts g s = .ok (f.dependencies, f.declarations) s' ∧
      f.span = s'.spanFrom s.span.start := by
  have located_parts : file g = located (fileParts g) >>= fun r => pure ⟨r.1.1, r.1.2, r.2⟩ := rfl
  rw [located_parts]
  constructor
  · intro run
    obtain ⟨⟨⟨deps, ds⟩, place⟩, s₁, first, done⟩ := bind_ok.1 run
    obtain ⟨rfl, rfl⟩ := pure_ok.1 done
    obtain ⟨parts, rfl⟩ := located_ok.1 first
    exact ⟨parts, rfl⟩
  · rintro ⟨parts, place⟩
    exact bind_ok.2 ⟨((f.dependencies, f.declarations), f.span), s', located_ok.2 ⟨parts, place⟩, rfl⟩

/-- Past the end no declaration is read. -/
theorem declarations_end {u : Reading} (hu : u.rest = []) : declarations full u = .ok [] u := by
  refine (many_ok (declaration?_advances Nested.nests_full_self)).2 (.stop ?_)
  rw [declaration?_run, Reading.token?_eq_none.2 hu]
  rfl

end Grammar

/-- What is read as a file from a reading. -/
theorem Reading.fileParts_ok (s : Reading) : s.file.2.rest = [] ∧
    fileParts s.nested s = .ok (s.file.1.dependencies, s.file.1.declarations) s.file.2 ∧
    fileParts Nested.full s = .ok (s.file.1.dependencies, s.file.1.declarations) s.file.2 := by
  obtain ⟨f, s', run, rest⟩ := file_read (g := s.nested) nests_self s
  rw [file_eq run]
  have full := run
  rw [← Nested.file_full] at full
  exact ⟨rest, (file_ok.1 run).1, (file_ok.1 full).1⟩

/-- A file is read over all that there is. -/
theorem Reading.file_after (s : Reading) : s.After s.rest s.file.2 := by
  obtain ⟨f, s', run, rest⟩ := file_read (g := s.nested) nests_self s
  obtain ⟨⟨cs, after⟩, -⟩ :=
    (file_inStep (σ := .onward s) (m := s.rest.length) nests_self).onward (P := Simulation.Anywhere) trivial run
  rw [file_eq run]
  have all : s.rest = cs := by rw [after.rest, rest, List.append_nil]
  rwa [all]

end Mim
