import Mim.Proofs.Isolation
import Mim.Proofs.Slices

/-! # Blanks and comments

What is read from a text depends on its tokens and not on where they stand. So blanks and
plain comments may be put in at the end of any token, on lines of their own.
-/

namespace Mim

open Grammar Shape Scan

/-! ## The same tokens elsewhere -/

/-- Readings in step where the second has no places. -/
def Simulation.placeless : Simulation where
  move := .placeless
  rel s u := s.Changed .placeless [] u ∧ u.lastEnd = 0
  marks _ := True
  bare h := h.1.bare
  span_eq {s u} h := by
    unfold Reading.span
    rw [h.1.rest, h.2]
    cases s.rest <;> rfl
  spanFrom_eq {s u} h place := by
    rw [Reading.spanFrom, h.2]
    rfl
  marks_span _ _ _ := trivial
  rel_advance {s u} h := by
    refine ⟨h.1.advance, ?_⟩
    cases hs : s.rest with
    | nil =>
        rw [Reading.advance_end (h.1.rest.trans (congrArg _ hs))]
        exact h.2
    | cons i tail =>
        rw [Reading.advance_eq (h.1.rest.trans (congrArg _ hs))]
        rfl
  rel_note {s u} h rule place _ := ⟨h.1.note rule place, (u.lastEnd_note _ _).trans h.2⟩
  rel_report {s u} h e _ := ⟨h.1.report e, (u.lastEnd_report _).trans h.2⟩

/-- The same file is read where the tokens have no places, with as many errors. -/
theorem Reading.file_placeless (items : List Item) :
    let s := start items
    let u := start (respan .placeless items)
    u.file.1 = respan .placeless s.file.1 ∧
      u.file.2.recorded.filter Diagnostic.isError =
        respan .placeless (s.file.2.recorded.filter Diagnostic.isError) := by
  intro s u
  obtain ⟨same, changed, -⟩ := Simulation.file_eq (σ := .placeless) (s := s) (u := u) ⟨⟨rfl, rfl⟩, rfl⟩
  exact ⟨same, changed.errors.trans (List.append_nil _)⟩

/-- The items of a text, places aside, are told from its tokens. -/
theorem Item.placeless_eq {text text' : String} (same : tokensOf text' = tokensOf text) :
    respan Change.placeless (ofLexemes (lexemes text')) = respan Change.placeless (ofLexemes (lexemes text)) := by
  have forget : ∀ items : List Item, respan Change.placeless items =
      (items.map Item.bare).map fun i => ⟨i.1, Span.zero, i.2⟩ := fun items => by
    rw [List.map_map]
    rfl
  rw [forget, forget, items_bare, items_bare, same]

/-- Two texts with the same tokens have the same tree, places aside, and both have errors or
    neither has. -/
theorem Source.eq_of_tokens {text text' : String} (same : tokensOf text' = tokensOf text) :
    (ofText text').hasErrors = (ofText text).hasErrors ∧
      respan Change.placeless (ofText text').file = respan Change.placeless (ofText text).file := by
  have read := Reading.file_placeless (Item.ofLexemes (lexemes text))
  have read' := Reading.file_placeless (Item.ofLexemes (lexemes text'))
  rw [Item.placeless_eq same] at read'
  have clean : Lexeme.AreClean (lexemes text') ↔ Lexeme.AreClean (lexemes text) := by
    rw [Lexeme.areClean_iff, Lexeme.areClean_iff]
    exact Iff.of_eq (congrArg (fun ts => ∀ t ∈ ts, ∀ reason, t ≠ Token.error reason) same)
  have recorded : (reading text').file.2.recorded.filter Diagnostic.isError = [] ↔
      (reading text).file.2.recorded.filter Diagnostic.isError = [] := by
    rw [← List.map_eq_nil_iff, ← List.map_eq_nil_iff (l := List.filter _ (reading text).file.2.recorded)]
    exact Iff.of_eq (congrArg (· = []) (read'.2.symm.trans read.2))
  refine ⟨?_, read'.1.symm.trans read.1⟩
  rw [← Bool.not_inj_iff, Bool.eq_iff_iff, Bool.not_eq_true', Bool.not_eq_true', hasErrors_eq_false,
    hasErrors_eq_false, errors_eq_nil, errors_eq_nil, clean, recorded]

/-! ## What is passed over -/

/-- Blanks and plain comments, each comment with its end. -/
inductive Trivia : List Char → Prop where
  | nil : Trivia []
  | blank {c : Char} {cs : List Char} : isBlank c → Trivia cs → Trivia (c :: cs)
  | block {inside cs : List Char} : ¬ ['*', '/'] <:+: inside → Trivia cs →
    Trivia ('/' :: '*' :: (inside ++ '*' :: '/' :: cs))
  | line {inside cs : List Char} : '\n' ∉ inside → inside.head? ≠ some '/' → Trivia cs →
    Trivia ('/' :: '/' :: (inside ++ '\n' :: cs))

/-- A block comment goes on to the first end of one. -/
theorem Shape.throughCommentEnd_first {inside : List Char} (h : ¬ ['*', '/'] <:+: inside)
    (cs : List Char) : throughCommentEnd (inside ++ '*' :: '/' :: cs) = some (inside.length + 2) := by
  induction inside with
  | nil => rfl
  | cons c inside ih =>
      rw [List.cons_append, throughCommentEnd, ih fun inner => h (List.infix_cons inner)]
      · rfl
      -- the end does not start at the first character
      · rintro ds rfl split
        cases inside with
        | nil => cases (List.cons.inj split).1
        | cons d inside =>
            obtain ⟨rfl, -⟩ := List.cons.inj split
            exact h ⟨[], inside, rfl⟩

/-- What is no token is passed over. -/
theorem lexemesFrom_skip {c : Char} {cs : List Char} {n : Nat} (h : first c cs = .blank n)
    (word rest : List Char) (split : cs = word ++ rest) (length : word.length = n) (place : Place) :
    lexemesFrom place (c :: cs) = lexemesFrom (place.after (c :: word)) rest := by
  rw [lexemesFrom_cons, h, split]
  change lexemesFrom (place.after (c :: (word ++ rest).take n)) ((word ++ rest).drop n) = _
  rw [List.take_left' length, List.drop_left' length]

theorem Trivia.lexemesFrom {s : List Char} (h : Trivia s) (place : Place) (cs : List Char) :
    lexemesFrom place (s ++ cs) = Mim.lexemesFrom (place.after s) cs := by
  induction h generalizing place with
  | nil => rfl
  | blank blank _ ih => exact (lexemesFrom_blank blank place _).trans (ih _)
  | @block inside rest closed _ ih =>
      have comment : first '/' ('*' :: (inside ++ '*' :: '/' :: (rest ++ cs))) =
          .blank (1 + (inside.length + 2)) := by
        rw [first_slash, slash, throughCommentEnd_first closed]
      have skip := lexemesFrom_skip comment ('*' :: (inside ++ ['*', '/'])) (rest ++ cs)
        (by simp) (by simp; omega) place
      rw [ih, ← Place.after_append] at skip
      simpa using skip
  | @line inside rest within plain _ ih =>
      have short : (inside ++ '\n' :: (rest ++ cs)).takeWhile (· != '\n') = inside := by
        rw [takeWhile_newline, List.takeWhile_eq_self_iff.2]
        intro c hc
        exact bne_iff_ne.2 fun newline => within (newline ▸ hc)
      have comment : first '/' ('/' :: (inside ++ '\n' :: (rest ++ cs))) = .blank (1 + inside.length) := by
        rw [first_slash, slash_line, run, short]
        rintro ds split
        cases inside with
        | nil => cases (List.cons.inj split).1
        | cons c inside => exact plain (congrArg some (List.cons.inj split).1)
      have skip := lexemesFrom_skip comment ('/' :: inside) ('\n' :: (rest ++ cs))
        (by simp) (by simp; omega) place
      rw [lexemesFrom_blank (show isBlank '\n' from rfl), ih] at skip
      simpa [Place.after] using skip

/-! ## Texts put together -/

/-- The tokens of two texts on lines of their own. -/
theorem tokensOf_lines {a : String} (clean : Lexeme.AreClean (lexemes a)) (b : String) :
    tokensOf (a ++ "\n" ++ b) = tokensOf a ++ tokensOf b := by
  obtain ⟨ys, lines, shifted⟩ := lexemes_lines clean b
  rw [tokensOf, lines, List.map_append, shifted.tokens]
  rfl

/-- Blanks and comments in front of a text are not among its tokens. -/
theorem tokensOf_trivia {s : String} (h : Trivia s.toList) (b : String) :
    tokensOf (s ++ b) = tokensOf b := by
  have moved := lexemesFrom_shifted (p := Place.first) (q := Place.first.after s.toList)
    (n := String.utf8Len s.toList) (Place.offset_after _ _) b.toList
  rw [tokensOf, lexemes, String.toList_append, h.lexemesFrom, moved.tokens]
  rfl

/-- A text without errors may be cut at its start and at the end of each token. -/
theorem tokensOf_cut {text : String} (h : (Source.ofText text).hasErrors = false) {p : Nat}
    (hp : p = 0 ∨ ∃ x ∈ lexemes text, x.span.stop = p) : ∃ before behind : String,
      text = before ++ behind ∧ before.utf8ByteSize = p ∧ Lexeme.AreClean (lexemes before) ∧
        tokensOf text = tokensOf before ++ tokensOf behind := by
  rcases hp with rfl | ⟨x, hx, rfl⟩
  · have nothing : lexemes "" = [] := lexemesFrom_nil Place.first
    refine ⟨"", text, by simp, rfl, ?_, ?_⟩
    · rw [nothing]
      exact fun _ hx => absurd hx List.not_mem_nil
    · rw [tokensOf, tokensOf, nothing]
      rfl
  · obtain ⟨xs, ys, split⟩ := List.append_of_mem hx
    have upTo : lexemes text = (xs ++ [x]) ++ ys := by simpa using split
    have member : ∀ z ∈ xs ++ [x], z.token ∈ tokensOf text := fun z hz =>
      List.mem_map_of_mem (upTo ▸ List.mem_append_left ys hz)
    have clean : Lexeme.AreClean (xs ++ [x]) := fun z hz => clean_tokens h _ (member z hz)
    obtain ⟨before, behind, text_eq, stop, same, left⟩ := lexemesFrom_upTo upTo
      List.getLast?_concat clean fun z hz point => no_point h (point ▸ member z hz)
    have front : tokensOf (String.ofList before) = (xs ++ [x]).map Lexeme.token := by
      rw [tokensOf, lexemes, String.toList_ofList, same.tokens]
    have back : tokensOf (String.ofList behind) = ys.map Lexeme.token := by
      have moved := lexemesFrom_shifted (p := Place.first) (q := Place.first.after before)
        (Place.offset_after _ _) behind
      rw [tokensOf, lexemes, String.toList_ofList, ← moved.tokens, left]
    refine ⟨String.ofList before, String.ofList behind, ?_, ?_, ?_, ?_⟩
    · rw [← String.ofList_append, ← text_eq, String.ofList_toList]
    · rw [String.utf8ByteSize_ofList, ← stop, Place.offset_after]
      exact (Nat.zero_add _).symm
    · rw [Lexeme.areClean_iff, ← tokensOf, front, ← Lexeme.areClean_iff]
      exact clean
    · rw [front, back, ← List.map_append, ← upTo]
      rfl

/-- Blanks and comments may be put into a text without errors, on lines of their own, at the
    start or at the end of any token: there are no errors then, and the tokens and the tree
    are the same, places aside. -/
theorem comments_are_transparent (text : String) (h : (Source.ofText text).hasErrors = false) (p : Nat)
    (hp : p = 0 ∨ ∃ x ∈ lexemes text, x.span.stop = p) (s : String) (trivia : Trivia s.toList) :
    ∃ before behind : String, text = before ++ behind ∧ before.utf8ByteSize = p ∧
      let commented := before ++ ("\n" ++ s) ++ behind
      (Source.ofText commented).hasErrors = false ∧ tokensOf commented = tokensOf text ∧
        respan .placeless (Source.ofText commented).file = respan .placeless (Source.ofText text).file := by
  obtain ⟨before, behind, split, size, clean, tokens⟩ := tokensOf_cut h hp
  have same : tokensOf (before ++ ("\n" ++ s) ++ behind) = tokensOf text := by
    rw [← String.append_assoc, String.append_assoc, tokensOf_lines clean, tokensOf_trivia trivia, tokens]
  obtain ⟨errors, tree⟩ := Source.eq_of_tokens same
  exact ⟨before, behind, split, size, errors.trans h, same, tree⟩

/-- Behind a doc comment, where the block comment has slashes in it and the comment behind
    that has a word. -/
theorem comments_are_transparent_doc :
    let text := "/// d\nlet x = f 1.5"
    let s := "\t/* /// * / */// let\n"
    (Source.ofText text).hasErrors = false ∧ (∃ x ∈ lexemes text, x.span.stop = 5) ∧ Trivia s.toList ∧
      ∃ before behind : String, text = before ++ behind ∧ before.utf8ByteSize = 5 ∧
        let commented := before ++ ("\n" ++ s) ++ behind
        (Source.ofText commented).hasErrors = false ∧ tokensOf commented = tokensOf text ∧
          respan .placeless (Source.ofText commented).file =
            respan .placeless (Source.ofText text).file := by
  intro text s
  have clean : (Source.ofText text).hasErrors = false := by decide +kernel
  have stop : ∃ x ∈ lexemes text, x.span.stop = 5 := by decide +kernel
  have parts : s.toList = '\t' :: '/' :: '*' :: (" /// * / ".toList ++ '*' :: '/' :: '/' :: '/' ::
      (" let".toList ++ '\n' :: [])) := by decide +kernel
  have trivia : Trivia s.toList := by
    rw [parts]
    exact .blank rfl (.block (by decide) (.line (by decide) (by decide) .nil))
  exact ⟨clean, stop, trivia, comments_are_transparent text clean 5 (.inr stop) s trivia⟩

end Mim
