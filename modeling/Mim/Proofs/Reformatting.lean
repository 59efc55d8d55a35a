import Mim.Proofs.DocComments
import Mim.Proofs.LaidOut
import Mim.Proofs.RoundTrip

/-! # Formatted once more

A formatted text has no errors, whatever its doc comments, and formatting it once more gives
the same text. What is left out may harm both: a bar behind `with`, and for the second an
empty line at the end of a doc comment that has another in front of it.
-/

namespace Mim

open Grammar Token Layout

namespace Layout

/-- The text of a layout does not tell where it stood. -/
def View.text : View .placeless Char := ⟨Piece.text, fun _ => rfl⟩

/-- The tokens of a layout but doc comments do not tell what is documented. -/
def View.solid {f : Change} : View f Token where
  seen p := undoc p.token?.toList
  docs doc := by
    have unseen (doc : Option String) :
        (docLayout doc).flatMap (fun p => undoc p.token?.toList) = [] := by
      rw [docLayout, List.flatMap_assoc]
      exact List.flatMap_eq_nil_iff.2 fun _ _ => rfl
    rw [unseen, unseen]

theorem tokens_eq_flatMap (l : Layout) : l.tokens = l.flatMap fun p => p.token?.toList :=
  List.filterMap_eq_flatMap_toList ..

theorem undoc_tokens (l : Layout) : undoc l.tokens = l.flatMap fun p => undoc p.token?.toList := by
  rw [tokens_eq_flatMap, undoc, List.filter_flatMap]
  rfl

end Layout

section Errors

variable {text : String}

/-- No bar that is left out keeps an arm apart from `with`. -/
theorem Regular.of_bare {s : Reading}
    (bars : ∀ t, [.keyword .with_, .symbol .pipe, t] <:+: s.tokens →
      t ≠ .symbol .leftBrace ∧ t.startsDeclaration = false) : Regular s.bare.rest := by
  constructor
  · intro t ts suffix
    rw [show s.bare.rest.map Item.token = s.tokens from List.map_map] at suffix
    exact bars t (List.IsInfix.trans ⟨[], ts, rfl⟩ suffix.isInfix)
  · intro i hi _ d hd
    obtain ⟨j, -, rfl⟩ := List.mem_map.1 hi
    cases hd

/-- A clean run is clean with other doc comments. -/
theorem Clean.redocumented {s : Reading} (clean : Clean s s.file.2) (g : Option String → Option String)
    (hg : g none = none) : Clean (s.redocumented g hg) (s.redocumented g hg).file.2 := by
  constructor
  · intro i hi
    obtain ⟨j, hj, rfl⟩ := List.mem_map.1 hi
    exact clean.tokens j hj
  · rw [s.file_redocumented g hg]
    exact clean.recorded

/-- Where there is nothing to document, no doc comment is written. -/
theorem Reading.undoc_layout {s : Reading} (clean : Clean s s.file.2) (none : ∀ i ∈ s.rest, i.doc = none) :
    undoc s.file.1.layout.tokens = s.file.1.layout.tokens := by
  refine List.filter_eq_self.2 fun t ht => ?_
  cases t with
  | doc line =>
      rw [tokens_file] at ht
      obtain ⟨i, hi, d, doc, -⟩ := (fileParts_spell (m := .canonical) (Nested.spelled_upTo _)
        (lays_upTo _) s.fileParts_ok.2.1 clean).2.1 ht
      rw [none i hi] at doc
      cases doc
  | _ => rfl

theorem Token.bareAfter_solid {ts : List Token} (h : undoc ts = ts) :
    bareAfter [] ts = ts.map fun t => (t, none) := by
  induction ts with
  | nil => rfl
  | cons t ts ih =>
      obtain ⟨solid, rest⟩ := List.forall_mem_cons.1 (List.filter_eq_self.1 h)
      rw [bareAfter_cons (by simpa using solid), ih (List.filter_eq_self.2 rest)]
      rfl

/-- Without doc comments a formatted text is read as the text that was formatted, unless a bar
    is left out between `with` and a brace or a declaration. -/
theorem Source.bare_respelled (h : (ofText text).hasErrors = false)
    (bars : ∀ t, [.keyword .with_, .symbol .pipe, t] <:+: undoc (tokensOf text) →
      t ≠ .symbol .leftBrace ∧ t.startsDeclaration = false) :
    (reading (ofText text).formatted).bare.file.2.recorded.filter Diagnostic.isError = [] ∧
      respan .placeless (reading (ofText text).formatted).bare.file.1 =
        respan .placeless (reading text).bare.file.1 := by
  let s := reading text
  let u := reading (ofText text).formatted
  have bare : Clean s.bare s.bare.file.2 := (clean_reading h).redocumented _ rfl
  rw [← items_tokens] at bars
  have none : ∀ i ∈ s.bare.rest, i.doc = none := by
    intro i hi
    obtain ⟨j, -, rfl⟩ := List.mem_map.1 hi
    rfl
  -- without doc comments the formatted text has the tokens of the layout of the file
  have copies : u.bare.rest.map Item.bare = bareAfter [] s.bare.file.1.layout.tokens := by
    have solid : s.bare.file.1.layout.tokens = undoc (tokensOf (ofText text).formatted) := by
      rw [← Reading.undoc_layout bare none, tokensOf_formatted h, undoc_tokens, undoc_tokens,
        show s.bare.file = _ from s.file_redocumented _ rfl]
      exact File.layout_respan .solid _
    rw [solid, bareAfter_solid (by simp [undoc]), ← items_tokens, List.map_map]
    exact List.map_map
  exact Reading.file_respelled bare (Regular.of_bare bars) copies

/-- A formatted text has no errors, unless a bar is left out between `with` and a brace or a
    declaration. -/
theorem formatted_without_errors (text : String) (h : (Source.ofText text).hasErrors = false)
    (bars : ∀ t, [.keyword .with_, .symbol .pipe, t] <:+: undoc (tokensOf text) →
      t ≠ .symbol .leftBrace ∧ t.startsDeclaration = false) :
    (Source.ofText (Source.ofText text).formatted).hasErrors = false := by
  let u := Source.reading (Source.ofText text).formatted
  obtain ⟨errors, -⟩ := Source.bare_respelled h bars
  rw [show u.bare.file = _ from u.file_redocumented _ rfl] at errors
  exact Source.hasErrors_eq_false.2 (Source.errors_eq_nil.2 ⟨clean_formatted h, errors⟩)

/-- The empty lines at the end of a doc comment do no harm. -/
theorem formatted_without_errors_doc :
    (Source.ofText "/// a\n///\n///\nlet x = match y with | z => 1").hasErrors = false ∧
      (Source.ofText (Source.ofText
        "/// a\n///\n///\nlet x = match y with | z => 1").formatted).hasErrors = false := by
  have clean : (Source.ofText "/// a\n///\n///\nlet x = match y with | z => 1").hasErrors = false := by
    decide +kernel
  refine ⟨clean, formatted_without_errors _ clean fun t h => ?_⟩
  have table : ∀ t ∈ undoc (tokensOf "/// a\n///\n///\nlet x = match y with | z => 1"),
      [.keyword .with_, .symbol .pipe, t] <:+:
        undoc (tokensOf "/// a\n///\n///\nlet x = match y with | z => 1") →
      t ≠ .symbol .leftBrace ∧ t.startsDeclaration = false := by decide +kernel
  exact table t (h.subset (by simp)) h

/-- A bar that is left out in front of a brace loses the arm. -/
theorem braced_arm_lost :
    (Source.ofText "let x = match y with | {a: b} -> c => d;").hasErrors = false ∧
      (Source.ofText (Source.ofText
        "let x = match y with | {a: b} -> c => d;").formatted).hasErrors = true :=
  ⟨by decide +kernel, by decide +kernel⟩

end Errors

/-! ## Doc comments that are read as they are written -/

section Settled

variable {text : String}

/-- A doc comment as it is read again from its layout, if that has all the lines still. -/
def settled (doc : Option String) : Option String :=
  if linesOf (Item.joinDocs (linesOf doc)) = linesOf doc then Item.joinDocs (linesOf doc) else doc

theorem settled_none : settled none = none := rfl

theorem linesOf_settled (doc : Option String) : linesOf (settled doc) = linesOf doc := by
  unfold settled
  split
  · assumption
  · rfl

theorem docLayout_eq (doc : Option String) :
    docLayout doc = (linesOf doc).flatMap fun line => [.token (.doc line), .line] := by
  rw [linesOf, List.flatMap_map]
  rfl

/-- The whole layout is seen where each doc comment is as it is read again. -/
def Layout.View.whole : View (.redocumented settled settled_none) Piece where
  seen p := [p]
  docs doc := by
    change (docLayout (settled doc)).flatMap _ = _
    rw [docLayout_eq, docLayout_eq, linesOf_settled]

/-- A doc comment that does not end in two empty lines is read again from its layout as it is
    read every other time. -/
theorem joinDocs_settled {d : String} {i : Item} (hi : i ∈ Item.ofLexemes (lexemes text)) (hd : d ∈ i.doc)
    (full : ¬ [.doc "", .doc "", i.token] <:+: tokensOf text) :
    Item.joinDocs (linesOf (settled (some d))) = settled (some d) := by
  obtain ⟨lines, before, behind, ne, rfl, eq⟩ := doc_item hi hd
  have within : ∀ line ∈ lines, '\n' ∉ line.toList := fun line hl => by
    have written : Token.doc line ∈ tokensOf text := by
      rw [eq]
      simp [hl]
    exact newline_of_mem written
  obtain ⟨kept, hk, sub, last⟩ : ∃ kept, linesOf (some ("\n".intercalate lines)) = kept ∧
      kept ⊆ lines ∧ kept.getLast? ≠ some "" := by
    rw [linesOf_join within]
    split
    · next empty =>
        refine ⟨_, rfl, List.dropLast_subset lines, fun again => ?_⟩
        obtain ⟨init, hi⟩ := List.getLast?_eq_some_iff.1 again
        have all : lines = init ++ ["", ""] := by
          rw [← List.dropLast_append_getLast? _ empty, hi, List.append_assoc]
          rfl
        exact full ⟨before ++ init.map .doc, behind, by rw [eq, all]; simp⟩
    · next filled => exact ⟨_, rfl, List.Subset.refl lines, filled⟩
  have again : linesOf (Item.joinDocs kept) = kept := by
    cases kept with
    | nil => rfl
    | cons line rest =>
        change linesOf (some ("\n".intercalate (line :: rest))) = _
        rw [linesOf_join fun line hl => within line (sub hl), if_neg last]
  rw [settled, hk, again, if_pos rfl, again]

/-- A formatted text is formatted, unless a bar is left out between `with` and a brace or a
    declaration, or a doc comment ends in two empty lines. -/
theorem formatting_settles (text : String) (h : (Source.ofText text).hasErrors = false)
    (bars : ∀ t, [.keyword .with_, .symbol .pipe, t] <:+: undoc (tokensOf text) →
      t ≠ .symbol .leftBrace ∧ t.startsDeclaration = false)
    (docs : ∀ t : Token, t.startsDeclaration → ¬ [.doc "", .doc "", t] <:+: tokensOf text) :
    (Source.ofText (Source.ofText text).formatted).formatted = (Source.ofText text).formatted := by
  let s := Source.reading text
  let s' := s.redocumented settled settled_none
  have read : s'.file = (_, _) := s.file_redocumented settled settled_none
  have layout : s'.file.1.layout = s.file.1.layout := by
    have whole := File.layout_respan .whole s.file.1
    rw [read]
    rwa [show Layout.View.whole.seen = fun p => [p] from rfl, List.flatMap_singleton',
      List.flatMap_singleton'] at whole
  have regular : Regular s'.rest := by
    constructor
    · intro t ts suffix
      rw [show s'.rest.map Item.token = s.rest.map Item.token from List.map_map] at suffix
      refine bars t ?_
      rw [← items_tokens]
      exact List.IsInfix.trans ⟨[], ts, rfl⟩ suffix.isInfix
    · intro i hi declares d hd
      obtain ⟨j, hj, rfl⟩ := List.mem_map.1 hi
      cases hjd : j.doc with
      | none =>
          have none : settled j.doc = some d := hd
          rw [hjd] at none
          cases none
      | some d' =>
          have eq : settled j.doc = some d := hd
          have again := joinDocs_settled hj (Option.mem_def.2 hjd) (docs _ declares)
          rw [← hjd, eq] at again
          exact again
  have copies : (Source.reading (Source.ofText text).formatted).rest.map Item.bare =
      bareAfter [] s'.file.1.layout.tokens := by
    rw [layout, show s.file.1 = (Source.ofText text).file from rfl, ← tokensOf_formatted h]
    exact items_bare _
  obtain ⟨-, same⟩ := Reading.file_respelled ((clean_reading h).redocumented _ _) regular copies
  have seen := congrArg (fun f : File => f.layout.flatMap Layout.View.text.seen) same
  rw [File.layout_respan .text, File.layout_respan .text, layout] at seen
  exact congrArg String.ofList seen

/-- One empty line is left out the first time, and no other is the second time. -/
theorem formatting_settles_doc :
    let text := "/// a\n///\n/// b\n///\nlet x = match y with | z => 1"
    (Source.ofText text).hasErrors = false ∧
      (Source.ofText (Source.ofText text).formatted).formatted = (Source.ofText text).formatted := by
  intro text
  have clean : (Source.ofText text).hasErrors = false := by decide +kernel
  refine ⟨clean, formatting_settles text clean (fun t h => ?_) (fun t declares h => ?_)⟩
  · have table : ∀ t ∈ undoc (tokensOf text),
        [.keyword .with_, .symbol .pipe, t] <:+: undoc (tokensOf text) →
        t ≠ .symbol .leftBrace ∧ t.startsDeclaration = false := by decide +kernel
    exact table t (h.subset (by simp)) h
  · have table : ∀ t ∈ tokensOf text, ¬ [.doc "", .doc "", t] <:+: tokensOf text := by decide +kernel
    exact table t (h.subset (by simp)) h

/-- Of several empty lines at the end of a doc comment, one is left out each time. -/
theorem empty_line_lost :
    (Source.ofText "/// a\n///\n///\nlet x = 1;").hasErrors = false ∧
      (Source.ofText "/// a\n///\n///\nlet x = 1;").formatted = "/// a\n///\nlet x = 1;\n" ∧
      (Source.ofText (Source.ofText "/// a\n///\n///\nlet x = 1;").formatted).formatted =
        "/// a\nlet x = 1;\n" :=
  ⟨by decide +kernel, by decide +kernel, by decide +kernel⟩

end Settled

end Mim
