import Mim.Proofs.Choices.Expr

/-! # A clean run tells of the choices in a file

Nothing is told of in the dependencies. Each declaration is told of in its turn, up to the end
of the text.
-/

namespace Mim

open Grammar
open Reading (Told ToldFresh ToldEnd)

variable {items : List Item} {l : List TieBreak} {s : Reading}

namespace Grammar

theorem dependency_tells : Tells (Told items l) dependency fun _ => Told items l := by
  have named {kind : DependencyKind} : Tells (ToldFresh items l) (do
      let name ← identifier
      expect (.symbol .semicolon)
      return (kind, name)) fun _ => Told items l :=
    ident_tells.fresh.bind fun _ => expect_tells.behind.last fun _ _ hs => hs.toTold
  refine Tells.node ?_ fun _ _ _ => id
  refine Tells.accept (fun s hs _ => hs.advance) named ?_
  exact (expect_tells.pre fun _ => And.left).bind fun _ => named

theorem dependency?_tells : Tells (Told items l) dependency? fun _ => Told items l := by
  refine Tells.see (v := fun s => s.token?.any startsDependency) (fun _ => dependencyAhead_run)
    fun ahead => ?_
  cases ahead with
  | false => exact Tells.pure fun _ => And.left
  | true =>
      refine Tells.map (R := fun _ => Told items l) ?_ fun _ _ => id
      refine Tells.post (Tells.recovering (dependency_tells.pre fun _ => And.left) dependency_inStep
        fun s hs => ⟨hs.1, fun none => ?_⟩) fun _ s => fun ⟨_, _, hs⟩ => hs
      rw [none] at hs
      exact Bool.false_ne_true hs.2

variable {g : Nested} (hg : g.Telling items)
include hg

theorem fileDeclaration_tells : Tells (Told items l) (fileDeclaration g) fun d =>
    Told items (l ++ d.choices) := by
  have read : Tells (Told items l) (do
      let d ← declaration g
      discard (accept (.symbol .semicolon))
      return d) fun d => Told items (l ++ d.choices) :=
    (declaration_tells hg).bind fun d => semicolon_tells fun _ => id
  refine Tells.see (fun _ => dependencyAhead_run) fun late =>
    Tells.ite ?_ (read.pre fun _ => And.left)
  exact Tells.see (fun _ => rfl) fun _ =>
    Tells.bind (R := fun _ => Told items l) Tells.invalid fun _ => read

theorem declaration?_tells (l : List TieBreak) : Tells (Told items l) (declaration? g) fun r =>
    Told items (l ++ r.elim [] Decl.choices) := by
  refine Tells.peek fun next => ?_
  cases next with
  | none => exact Tells.pure fun s hs => by simpa using hs.1
  | some t =>
      exact Tells.map (Tells.declarationOrError ((fileDeclaration_tells hg).pre fun _ => And.left)
        (fileDeclaration_inStep hg.groups.inStep) fun s hs => ⟨hs.1, by simp [hs.2]⟩) fun _ _ => id

theorem file_tells : Tells (Told items l) (file g) fun f => Told items (l ++ f.choices) := by
  refine Tells.node (R := fun p => Told items (l ++ Decl.choicesEach p.2)) ?_ fun _ _ _ => id
  have dependencies_ : Tells (Told items l) dependencies fun _ => Told items l :=
    (Tells.loop dependency?_tells).last fun _ _ => id
  refine dependencies_.bind fun _ => ?_
  refine (Tells.each (declaration?_tells hg)).last fun ds s hs => ?_
  rwa [Decl.choicesEach_eq]

end Grammar

/-- Before anything has been read, nothing has been told of. -/
theorem Reading.Told.start (single : s.Single) (clean : ∀ i ∈ s.rest, ∀ reason, i.token ≠ .error reason)
    (places : s.places.Pairwise fun a b => a.start ≤ b.start) (fresh : s.recorded = []) :
    Told s.rest [] s where
  single := single
  ordered := {
    recorded := fresh ▸ .nil
    passed := by
      rw [fresh]
      nofun
    places := places }
  within := List.suffix_refl _
  whole := clean
  told := by
    rw [rules, diagnostics, fresh]
    rfl
  placed _ := List.not_mem_nil
  calm _ place chose := by
    rw [Chose, fresh] at chose
    cases chose

/-- A text without errors is told of in its order. -/
theorem Source.told {text : String} (h : (ofText text).hasErrors = false) :
    Told (reading text).rest (ofText text).file.choices (reading text).file.2 := by
  have clean := clean_reading h
  have tidy : Tidy Item.span (reading text).rest := Item.ofLexemes_tidy Place.first text.toList
  have places : (reading text).places.Pairwise fun a b => a.start ≤ b.start := by
    refine List.pairwise_map.2 (tidy.ordered.imp_of_mem fun {i j} hi _ apart => ?_)
    exact Nat.le_trans (Nat.le_of_lt (tidy.filled i hi)) apart
  have start := Reading.Told.start (single_reading text) clean.tokens places rfl
  obtain ⟨f, s', run, -⟩ := file_read (g := (reading text).nested) nests_self (reading text)
  have read : (reading text).file = (f, s') := Reading.file_eq run
  rw [show (ofText text).file = (reading text).file.1 from rfl, read]
  rw [read] at clean
  exact (file_tells (l := []) (Nested.telling_upTo _) run clean.recorded).2 start

end Mim
