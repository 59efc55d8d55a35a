import Mim.Proofs.Lexing.Parts
import Mim.Proofs.Progress

/-! # The same tokens further on

A text reads in the same way wherever it stands: what is read from it has its spans moved,
and so has everything that is reported.
-/

namespace Mim

open Simulation (Anywhere)

/-- All stands `n` bytes further on, and doc comments are kept or forgotten. -/
def Change.further (n : Nat) (keepsDocs : Bool) : Change :=
  ⟨Span.shift n, fun d => if keepsDocs then d else none, ite_self _⟩

/-- Two readings of the same tokens, the second with changed spans, and with errors of its
    own from before. -/
structure Reading.Changed (f : Change) (base : List Diagnostic) (s u : Reading) : Prop where
  rest : u.rest = respan f s.rest
  errors : u.recorded.filter Diagnostic.isError =
    respan f (s.recorded.filter Diagnostic.isError) ++ base

namespace Reading.Changed

variable {f : Change} {base : List Diagnostic} {s u : Reading}

theorem bare (h : Changed f base s u) : u.rest.map Item.bare = s.rest.map (Item.bareUnder f) := by
  rw [h.rest]
  exact List.map_map

theorem advance (h : Changed f base s u) : Changed f base s.advance u.advance := by
  obtain ⟨rest, errors⟩ := h
  cases hs : s.rest with
  | nil =>
      rw [advance_end hs, advance_end (rest.trans (congrArg _ hs))]
      exact ⟨rest, errors⟩
  | cons i tail =>
      rw [advance_eq hs, advance_eq (rest.trans (congrArg _ hs))]
      exact ⟨rfl, errors⟩

theorem note (h : Changed f base s u) (rule : TieBreak) (place : Span) :
    Changed f base (s.note rule place) (u.note rule (f place)) := by
  constructor
  · rw [rest_note, rest_note]
    exact h.rest
  · rw [errors_note, errors_note]
    exact h.errors

theorem report (h : Changed f base s u) (e : ParseError) :
    Changed f base (s.report e) (u.report (respan f e)) := by
  have same : (respan f e).isReported = e.isReported := rfl
  unfold Reading.report
  rw [same]
  split
  · exact h
  · exact ⟨h.rest, congrArg (respan f (⟨.grammar e.fault, e.span⟩ : Diagnostic) :: ·) h.errors⟩

end Reading.Changed

/-- Two readings of the same tokens, the second `n` bytes further on. The end of the last
    token is moved too, but where the first reading has read none yet. -/
structure Reading.Shifted (n : Nat) (keepsDocs : Bool) (base : List Diagnostic) (s u : Reading) :
    Prop extends Reading.Changed (Change.further n keepsDocs) base s u where
  lastEnd : u.lastEnd = s.lastEnd + n ∨ s.lastEnd = 0 ∧ u.lastEnd ≤ n ∧ s.rest ≠ []

namespace Reading.Shifted

variable {n : Nat} {keepsDocs : Bool} {base : List Diagnostic} {s u : Reading}

theorem advance (h : Shifted n keepsDocs base s u) :
    Shifted n keepsDocs base s.advance u.advance := by
  refine ⟨h.toChanged.advance, ?_⟩
  cases hs : s.rest with
  | nil =>
      rw [advance_end hs, advance_end (h.rest.trans (congrArg _ hs))]
      exact h.lastEnd
  | cons i tail =>
      rw [advance_eq hs, advance_eq (h.rest.trans (congrArg _ hs))]
      exact .inl rfl

theorem note (h : Shifted n keepsDocs base s u) (rule : TieBreak) (place : Span) :
    Shifted n keepsDocs base (s.note rule place) (u.note rule (Change.further n keepsDocs place)) := by
  refine ⟨h.toChanged.note rule place, ?_⟩
  rw [lastEnd_note, lastEnd_note, rest_note]
  exact h.lastEnd

theorem report (h : Shifted n keepsDocs base s u) (e : ParseError) :
    Shifted n keepsDocs base (s.report e) (u.report (respan (Change.further n keepsDocs) e)) := by
  refine ⟨h.toChanged.report e, ?_⟩
  rw [lastEnd_report, lastEnd_report, rest_report]
  exact h.lastEnd

end Reading.Shifted

/-- Readings in step where the second stands `n` bytes further on. -/
def Simulation.shifted (n : Nat) (keepsDocs : Bool) (base : List Diagnostic) : Simulation where
  move := .further n keepsDocs
  rel := Reading.Shifted n keepsDocs base
  marks _ := True
  bare h := h.bare
  span_eq {s u} h := by
    have lastEnd := h.lastEnd
    unfold Reading.span
    rw [h.rest]
    cases hs : s.rest with
    | cons i rest => rfl
    | nil =>
        rw [hs] at lastEnd
        obtain moved : u.lastEnd = s.lastEnd + n := by simpa using lastEnd
        rw [show respan _ ([] : List Item) = [] from rfl]
        simp only [Change.further, Span.point, Span.shift, moved]
  spanFrom_eq {s u} h place := by
    have lastEnd := h.lastEnd
    simp only [Reading.spanFrom, Change.further, Span.shift, Span.mk.injEq, true_and]
    omega
  marks_span _ _ _ := trivial
  rel_advance h := h.advance
  rel_note h rule place _ := h.note rule place
  rel_report h e _ := h.report e

namespace Item

variable {xs ys : List Lexeme} {n : Nat}

/-- The items of the same lexemes further on. -/
theorem ofLexemes_shifted (h : Lexeme.Shifted n xs ys) (pending : List String) :
    ofLexemesAfter pending ys = respan (Change.further n true) (ofLexemesAfter pending xs) := by
  induction xs generalizing ys pending with
  | nil =>
      obtain rfl := List.map_eq_nil_iff.1 h
      rfl
  | cons x xs ih =>
      obtain ⟨y, ys, rfl, hy, hys⟩ := List.map_eq_cons_iff.1 h
      have token : y.token = x.token := congrArg Prod.fst hy
      have place : y.span = x.span.shift n := congrArg Prod.snd hy
      rw [ofLexemesAfter, ofLexemesAfter, token]
      split
      · exact ih hys _
      · rw [place, ih hys]
        rfl

/-- The items of two texts, where the first does not end in a doc comment. -/
theorem ofLexemes_append (h : ∀ x ∈ xs.getLast?, x.token.isDoc = false) (ys : List Lexeme) :
    ofLexemes (xs ++ ys) = ofLexemes xs ++ ofLexemes ys := by
  suffices after : ∀ pending, (xs = [] → pending = []) →
      ofLexemesAfter pending (xs ++ ys) = ofLexemesAfter pending xs ++ ofLexemesAfter [] ys from
    after [] fun _ => rfl
  induction xs with
  | nil =>
      intro pending none
      rw [none rfl]
      rfl
  | cons x xs ih =>
      intro pending _
      have last : ∀ x ∈ xs.getLast?, x.token.isDoc = false := by
        intro z hz
        refine h z ?_
        rw [List.getLast?_cons, Option.mem_def.1 hz]
        rfl
      rw [List.cons_append, ofLexemesAfter, ofLexemesAfter]
      split
      · next line token =>
          refine ih last _ fun nil => ?_
          have solid := h x (by rw [nil]; rfl)
          rw [token] at solid
          cases solid
      · rw [ih last [] fun _ => rfl, List.cons_append]

end Item

end Mim
