import Mim.Proofs.Nesting

/-! # What doc comments are for

A doc comment documents the declaration that it stands in front of and does nothing else.
Without doc comments the same is read from the same tokens and the same is reported.
-/

namespace Mim

open Grammar
open Simulation (Anywhere)

/-! ## Reading with other doc comments -/

/-- Without a doc comment there is none to lose. -/
theorem Change.forget_none : (fun _ : Option String => (none : Option String)) none = none := rfl

/-- Spans stay, and doc comments are changed. -/
def Change.redocumented (g : Option String → Option String) (hg : g none = none) : Change :=
  ⟨fun place => place, g, hg⟩

section Redocumented

variable (g : Option String → Option String) (hg : g none = none)

namespace Reading

/-- The same tokens, with changed doc comments. -/
def redocumented (s : Reading) : Reading := { s with rest := respan (Change.redocumented g hg) s.rest }

variable (s : Reading)

theorem span_redocumented : (s.redocumented g hg).span = s.span := by
  unfold span redocumented
  cases s.rest <;> rfl

theorem advance_redocumented : (s.redocumented g hg).advance = s.advance.redocumented g hg := by
  unfold advance redocumented
  cases hs : s.rest with
  | nil => exact congrArg (fun rest => (⟨respan _ rest, _, _⟩ : Reading)) hs.symm
  | cons => rfl

theorem note_redocumented (rule : TieBreak) (place : Span) :
    (s.redocumented g hg).note rule place = (s.note rule place).redocumented g hg :=
  (apply_ite (redocumented g hg) (s.recorded.head? = some ⟨.tieBreak rule, place⟩) s
    (s.record ⟨.tieBreak rule, place⟩)).symm

theorem report_redocumented (e : ParseError) :
    (s.redocumented g hg).report e = (s.report e).redocumented g hg := by
  unfold report
  split <;> rfl

end Reading

/-- Readings in step where the second has changed doc comments. -/
def Simulation.redocumented : Simulation where
  move := .redocumented g hg
  rel s u := u = s.redocumented g hg
  marks _ := True
  bare := by
    rintro s _ rfl
    exact List.map_map
  span_eq := by
    rintro s _ rfl
    exact s.span_redocumented g hg
  spanFrom_eq := by
    rintro s _ rfl place
    rfl
  marks_span _ _ _ := trivial
  rel_advance := by
    rintro s _ rfl
    exact s.advance_redocumented g hg
  rel_note := by
    rintro s _ rfl rule place -
    exact s.note_redocumented g hg rule place
  rel_report := by
    rintro s _ rfl e -
    exact s.report_redocumented g hg e

/-- The same file is read, but for what documents it. -/
theorem Reading.file_redocumented (s : Reading) : (s.redocumented g hg).file =
    (respan (Change.redocumented g hg) s.file.1, s.file.2.redocumented g hg) := by
  have agree : (s.redocumented g hg).file.1 = _ ∧
      (s.redocumented g hg).file.2 = s.file.2.redocumented g hg :=
    Simulation.file_eq (σ := Simulation.redocumented g hg) rfl
  exact Prod.ext agree.1 agree.2

end Redocumented

/-- The same tokens, without their doc comments. -/
abbrev Reading.bare (s : Reading) : Reading := s.redocumented (fun _ => none) Change.forget_none

theorem Item.ofLexemes_cons {x : Lexeme} (h : x.token.isDoc = false) (pending : List String)
    (xs : List Lexeme) : ofLexemesAfter pending (x :: xs) =
      ⟨x.token, x.span, joinDocs pending⟩ :: ofLexemesAfter [] xs := by
  rw [ofLexemesAfter]
  split
  · next line token =>
      rw [token] at h
      cases h
  · rfl

/-- The items of the lexemes that are no doc comments. -/
theorem Item.ofLexemes_solid (xs : List Lexeme) :
    ofLexemes (Lexeme.solid xs) = respan Change.id.undocumented (ofLexemes xs) := by
  have solid : ∀ ys : List Lexeme, (∀ y ∈ ys, y.token.isDoc = false) →
      ofLexemesAfter [] ys = ys.map fun y => ⟨y.token, y.span, none⟩ := by
    intro ys h
    induction ys with
    | nil => rfl
    | cons y ys ih =>
        obtain ⟨first, rest⟩ := List.forall_mem_cons.1 h
        rw [ofLexemes_cons first, ih rest]
        rfl
  have bare := map_ofLexemesAfter (fun t place => (⟨t, place, none⟩ : Item)) xs []
  refine (solid _ fun y hy => ?_).trans bare.symm
  simpa using (List.mem_filter.1 hy).2

/-! ## Declarations and their doc comments -/

theorem Item.ofLexemes_docs {docs : List Lexeme} {lines : List String}
    (h : docs.map Lexeme.token = lines.map Token.doc) (xs : List Lexeme) : ∀ pending,
    ofLexemesAfter pending (docs ++ xs) = ofLexemesAfter (pending ++ lines) xs := by
  induction docs generalizing lines with
  | nil =>
      obtain rfl := List.map_eq_nil_iff.1 h.symm
      simp
  | cons x docs ih =>
      obtain ⟨line, lines, rfl, token, rest⟩ := List.map_eq_cons_iff.1 h.symm
      intro pending
      rw [List.cons_append, ofLexemesAfter, ← token]
      simpa using ih rest.symm (pending ++ [line])

/-- An item comes from a lexeme, with the doc comments directly in front of it. -/
theorem Item.exists_docs {xs : List Lexeme} {pending : List String} {before : List Item} {i : Item}
    {behind : List Item} (split : ofLexemesAfter pending xs = before ++ i :: behind) :
    ∃ as docs x bs, xs = as ++ docs ++ x :: bs ∧ (∀ y ∈ as.getLast?, y.token.isDoc = false) ∧
      x.token.isDoc = false ∧ ∃ lines, docs.map Lexeme.token = lines.map Token.doc ∧
        i = ⟨x.token, x.span, joinDocs ((if as = [] then pending else []) ++ lines)⟩ ∧
        behind = ofLexemesAfter [] bs := by
  induction xs generalizing pending before with
  | nil => simp [ofLexemesAfter] at split
  | cons x xs ih =>
      rw [ofLexemesAfter] at split
      split at split
      · next line token =>
          obtain ⟨as, docs, y, bs, rfl, last, solid, lines, hl, hi, hb⟩ := ih split
          cases as with
          | nil =>
              exact ⟨[], x :: docs, y, bs, rfl, by simp, solid, line :: lines,
                congrArg₂ List.cons token hl, by simpa using hi, hb⟩
          | cons a as =>
              exact ⟨x :: a :: as, docs, y, bs, rfl, by simpa using last, solid, lines, hl, hi, hb⟩
      · next notDoc =>
          have solid : x.token.isDoc = false := Token.isDoc_eq_false notDoc
          cases before with
          | nil =>
              obtain ⟨rfl, rfl⟩ := List.cons.inj split
              exact ⟨[], [], x, xs, rfl, by simp, solid, [], rfl, by simp, rfl⟩
          | cons j before =>
              obtain ⟨as, docs, y, bs, rfl, last, whole, lines, hl, hi, hb⟩ := ih (List.cons.inj split).2
              refine ⟨x :: as, docs, y, bs, rfl, fun z hz => ?_, whole, lines, hl, by simpa using hi, hb⟩
              cases as with
              | nil =>
                  obtain rfl : x = z := by simpa using hz
                  exact solid
              | cons a as => exact last z (by simpa using hz)

/-- Doc comments or none, the same file is read from the same tokens and the same is
    reported; and the doc comment of each declaration that is not broken is the lines of the
    doc comments between its first token and the token before. -/
theorem doc_comments_only_document (xs : List Lexeme) :
    let s := Reading.start (Item.ofLexemes xs)
    let bare := Reading.start (Item.ofLexemes (Lexeme.solid xs))
    bare.file.1 = respan Change.id.undocumented s.file.1 ∧
      bare.file.2.diagnostics = s.file.2.diagnostics ∧
      ∀ n ∈ s.file.1.node.all, ∀ d ∈ n.decl?, d.form.isWhole →
        ∃ before docs x behind, xs = before ++ docs ++ x :: behind ∧
          (∀ y ∈ before.getLast?, y.token.isDoc = false) ∧ x.token.isDoc = false ∧
          (∃ n r r', declaration (Nested.upTo n) r = .ok d r' ∧
            r.rest = Item.ofLexemes (docs ++ x :: behind)) ∧
          d.span.start = x.span.start ∧
          ∃ lines, docs.map Lexeme.token = lines.map Token.doc ∧ d.doc = Item.joinDocs lines := by
  intro s bare
  have same : bare = s.bare := congrArg (Reading.mk · 0 []) (Item.ofLexemes_solid xs)
  have file : s.bare.file = _ := s.file_redocumented (fun _ => none) Change.forget_none
  rw [← same] at file
  refine ⟨congrArg Prod.fst file, ?_, ?_⟩
  · exact (congrArg (fun r : File × Reading => r.2.diagnostics) file).trans rfl
  intro n hn d hd whole
  obtain ⟨covers, -, -⟩ := Reading.file_covers (Item.ofLexemes xs)
  rw [Node.all_eq] at hn
  rcases List.mem_cons.1 hn with rfl | hn
  · cases hd
  obtain ⟨cs, read⟩ := covers.isReadFrom n hn
  obtain ⟨r, r', before, behind, first, after, -, k, run⟩ := read.decl d hd whole
  obtain ⟨form, inner, rfl⟩ := declaration_ok.1 run
  -- a declaration has a first token
  obtain ⟨i, rest, hr⟩ : ∃ i rest, r.rest = i :: rest := by
    have length : r'.rest.length + 1 ≤ r.rest.length :=
      (Simulation.InStep.onward (P := Anywhere) (declaration_inStep nests_self) trivial run).length
    refine List.exists_cons_of_ne_nil fun none => ?_
    rw [none] at length
    exact absurd length (Nat.not_succ_le_zero _)
  have split : Item.ofLexemes xs = before ++ i :: rest := first.rest.trans (congrArg (before ++ ·) hr)
  obtain ⟨as, docs, x, bs, hx, last, solid, lines, hl, rfl, rfl⟩ := Item.exists_docs split
  refine ⟨as, docs, x, bs, hx, last, solid, ⟨k, r, r', run, ?_⟩, ?_, lines, hl, ?_⟩
  · rw [hr, Item.ofLexemes, Item.ofLexemes_docs hl, Item.ofLexemes_cons solid]
    simp
  · change r.span.start = _
    rw [Reading.span, hr]
  · change r.doc? = _
    rw [Reading.doc?, hr]
    simp

/-- Two lines on the first declaration, none on the one that breaks off inside it, and one on
    the declaration behind that. -/
theorem doc_comments_only_document_nested :
    let xs := lexemes "/// a\n/// b\nlet x = y where /// c\nlet z = ; /// d\nlet w = 1; end"
    let s := Reading.start (Item.ofLexemes xs)
    let bare := Reading.start (Item.ofLexemes (Lexeme.solid xs))
    (s.file.1.node.all.filterMap Node.decl?).map Decl.doc = [some "a\nb", none, some "d"] ∧
      bare.file.1 = respan Change.id.undocumented s.file.1 :=
  ⟨by decide +kernel, (doc_comments_only_document _).1⟩

end Mim
