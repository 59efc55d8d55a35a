import Mim.Proofs.Lexing.Layouts
import Mim.Proofs.Sources
import Mim.Proofs.Spells.Files

/-! # Formatted text

Formatting a text without errors keeps its tokens, apart from optional punctuation, and as a
rule the formatted text has the same tree.
-/

namespace Mim

open Grammar Token
open Nested (full)

/-! ## Doc comments -/

section Docs

variable {ts : List Token} {lines : List String}

/-- The items of lexemes have the doc comments in front of each token. -/
theorem Item.bare_ofLexemesAfter (xs : List Lexeme) : ∀ pending,
    (ofLexemesAfter pending xs).map Item.bare = bareAfter pending (xs.map Lexeme.token) := by
  induction xs with
  | nil => exact fun _ => rfl
  | cons x xs ih =>
      intro pending
      rw [ofLexemesAfter, List.map_cons]
      split
      · next line h =>
          rw [h, bareAfter]
          exact ih _
      · next token h =>
          have plain : x.token.isDoc = false := isDoc_eq_false h
          rw [bareAfter_cons plain, List.map_cons, ih]
          rfl

/-- The doc comment of a token is made of the lines in front of the token. -/
theorem Token.mem_bareAfter {t : Token} {d : String} : ∀ {ts : List Token} {pending : List String},
    (t, some d) ∈ bareAfter pending ts → ∃ lines before behind, lines ≠ [] ∧
      d = "\n".intercalate lines ∧ pending.map doc ++ ts = before ++ (lines.map doc ++ t :: behind)
  | [], _, h => nomatch h
  | u :: ts, pending, h => by
      cases hu : u.isDoc with
      | true =>
          obtain ⟨line, rfl⟩ : ∃ line, u = doc line := by cases u <;> first | exact ⟨_, rfl⟩ | cases hu
          obtain ⟨lines, before, behind, ne, hd, eq⟩ := @mem_bareAfter _ _ ts _ h
          exact ⟨lines, before, behind, ne, hd, by rw [← eq]; simp⟩
      | false =>
          rw [bareAfter_cons hu] at h
          rcases List.mem_cons.1 h with h | h
          · obtain ⟨rfl, joined⟩ := Prod.mk.inj h
            cases pending with
            | nil => cases joined
            | cons line pending =>
                exact ⟨line :: pending, [], ts, by simp, Option.some.inj joined, rfl⟩
          · obtain ⟨lines, before, behind, ne, hd, eq⟩ := @mem_bareAfter _ _ ts _ h
            refine ⟨lines, pending.map doc ++ u :: before, behind, ne, hd, ?_⟩
            simp only [List.map_nil, List.nil_append] at eq
            rw [eq]
            simp

theorem docLines_line {line : List Char} (h : '\n' ∉ line) :
    docLines line = if line = [] then [] else [line] := by
  induction line with
  | nil => rfl
  | cons c line ih =>
      obtain ⟨hc, hl⟩ : '\n' ≠ c ∧ '\n' ∉ line := by simpa using h
      rw [docLines, if_neg (Ne.symm hc), ih hl]
      cases line <;> rfl

theorem docLines_newline {line : List Char} (h : '\n' ∉ line) (rest : List Char) :
    docLines (line ++ '\n' :: rest) = line :: docLines rest := by
  induction line with
  | nil => rfl
  | cons c line ih =>
      obtain ⟨hc, hl⟩ : '\n' ≠ c ∧ '\n' ∉ line := by simpa using h
      rw [List.cons_append, docLines, if_neg (Ne.symm hc), ih hl]

/-- The lines of joined lines are those lines, but for a last one with nothing in it. -/
theorem linesOf_join (h : ∀ line ∈ lines, '\n' ∉ line.toList) :
    linesOf (some ("\n".intercalate lines)) =
      if lines.getLast? = some "" then lines.dropLast else lines := by
  have lines_eq : linesOf (some ("\n".intercalate lines)) =
      (docLines (['\n'].intercalate (lines.map String.toList))).map String.ofList := by
    rw [linesOf, Option.getD_some, String.toList_intercalate]
    rfl
  rw [lines_eq]
  clear lines_eq
  induction lines with
  | nil => rfl
  | cons line lines ih =>
      obtain ⟨first, rest⟩ := List.forall_mem_cons.1 h
      cases lines with
      | nil =>
          rw [List.map_singleton, List.intercalate_singleton, docLines_line first]
          by_cases empty : line = ""
          · simp [empty]
          · simp [empty]
      | cons line' lines =>
          simp only [List.map_cons] at ih ⊢
          rw [List.intercalate_cons_cons, List.append_assoc, List.singleton_append,
            docLines_newline first, List.map_cons, ih rest, String.ofList_toList,
            List.getLast?_cons_cons, List.dropLast_cons_cons]
          split <;> rfl

end Docs

/-- The tokens of a text, doc comments and all. -/
def tokensOf (text : String) : List Token := (lexemes text).map Lexeme.token

section Texts

variable {text : String}

theorem items_bare (text : String) :
    (Item.ofLexemes (lexemes text)).map Item.bare = bareAfter [] (tokensOf text) :=
  Item.bare_ofLexemesAfter (lexemes text) []

theorem items_tokens (text : String) :
    (Item.ofLexemes (lexemes text)).map Item.token = undoc (tokensOf text) := by
  rw [← fst_bareAfter _ [], ← items_bare, List.map_map]
  rfl

/-- A token of a text reads back from its own text, unless it is broken. -/
theorem reads_of_mem {t : Token} (h : t ∈ tokensOf text) (clean : ∀ reason, t ≠ .error reason) :
    t.Reads := by
  obtain ⟨x, hx, rfl⟩ := List.mem_map.1 h
  exact Lexeme.reads hx clean

/-- The lines of doc comments have no newline in them. -/
theorem newline_of_mem {line : String} (h : doc line ∈ tokensOf text) : '\n' ∉ line.toList :=
  (reads_of_mem h (by simp)).newline

/-- The lines of the doc comment of an item are doc comments of the text. -/
theorem doc_item {i : Item} (hi : i ∈ Item.ofLexemes (lexemes text)) {d : String} (hd : d ∈ i.doc) :
    ∃ lines before behind, lines ≠ [] ∧ d = "\n".intercalate lines ∧
      tokensOf text = before ++ (lines.map doc ++ i.token :: behind) := by
  have mem : (i.token, some d) ∈ bareAfter [] (tokensOf text) := by
    rw [← items_bare]
    refine List.mem_map.2 ⟨i, hi, ?_⟩
    rw [Item.bare, Option.mem_def.1 hd]
  exact mem_bareAfter mem

end Texts

/-! ## The formatted text -/

section Formatted

variable {text : String}

/-- A text without errors is read by a clean run. -/
theorem clean_reading (h : (Source.ofText text).hasErrors = false) :
    Clean (Source.reading text) (Source.reading text).file.2 := by
  obtain ⟨tokens, recorded⟩ := Source.errors_eq_nil.1 (Source.hasErrors_eq_false.1 h)
  refine ⟨fun i hi reason broken => ?_, fun d hd => by simpa using List.filter_eq_nil_iff.1 recorded d hd⟩
  obtain ⟨x, hx, -, token, -⟩ := Item.exists_lexeme hi
  exact tokens x hx reason (token.trans broken)

theorem clean_tokens (h : (Source.ofText text).hasErrors = false) :
    ∀ t ∈ tokensOf text, ∀ reason, t ≠ .error reason := by
  obtain ⟨tokens, -⟩ := Source.errors_eq_nil.1 (Source.hasErrors_eq_false.1 h)
  intro t ht reason broken
  obtain ⟨x, hx, rfl⟩ := List.mem_map.1 ht
  exact tokens x hx reason broken

/-- The tokens of the tree of a text, which are those of the text but for optional ones. -/
theorem layout_alike (h : (Source.ofText text).hasErrors = false) :
    Alike (undoc (tokensOf text)) (undoc (Source.ofText text).file.layout.tokens) := by
  rw [tokens_file, ← items_tokens]
  exact (fileParts_spell (m := .canonical) (Nested.spelled_upTo _) (lays_upTo _)
    (Source.reading text).fileParts_ok.2.1 (clean_reading h)).1

/-- What is never optional is not left out. -/
theorem mem_essential {t : Token} {ts : List Token} (kept : ∀ b us, t.isOptional b us = false)
    (ht : t ∈ ts) : ∀ b, t ∈ essentialAfter b ts := by
  induction ts with
  | nil => cases ht
  | cons u ts ih =>
      intro b
      rw [essentialAfter]
      split
      · next optional =>
          rcases List.mem_cons.1 ht with rfl | ht
          · rw [kept] at optional
            cases optional
          · exact ih ht _
      · rcases List.mem_cons.1 ht with rfl | ht
        · exact List.mem_cons_self
        · exact List.mem_cons_of_mem _ (ih ht _)

theorem essential_sublist (ts : List Token) : ∀ b, (essentialAfter b ts).Sublist ts := by
  induction ts with
  | nil => exact fun _ => List.Sublist.refl _
  | cons t ts ih =>
      intro b
      rw [essentialAfter]
      split
      · exact (ih _).cons t
      · exact (ih _).cons_cons t

/-- The tokens of the tree of a text are tokens of the text, or signs. -/
theorem mem_layout (h : (Source.ofText text).hasErrors = false) {t : Token}
    (ht : t ∈ (Source.ofText text).file.layout.tokens) : t ∈ tokensOf text ∨ ∃ s, t = .symbol s := by
  cases hd : t.isDoc with
  | true =>
      obtain ⟨line, rfl⟩ : ∃ line, t = .doc line := by cases t <;> first | exact ⟨_, rfl⟩ | cases hd
      rw [tokens_file] at ht
      obtain ⟨i, hi, d, doc, mem⟩ := (fileParts_spell (m := .canonical) (Nested.spelled_upTo _)
        (lays_upTo _) (Source.reading text).fileParts_ok.2.1 (clean_reading h)).2.1 ht
      obtain ⟨lines, before, behind, -, rfl, eq⟩ := doc_item hi doc
      have written : ∀ line ∈ lines, .doc line ∈ tokensOf text := fun line hl => by
        rw [eq]
        simp [hl]
      have joined := linesOf_join fun line hl => newline_of_mem (written line hl)
      have line_mem : line ∈ linesOf (some ("\n".intercalate lines)) :=
        List.mem_map.2 ⟨line.toList, mem, String.ofList_toList⟩
      rw [joined] at line_mem
      refine .inl (written line ?_)
      split at line_mem
      · exact List.dropLast_subset _ line_mem
      · exact line_mem
  | false =>
      refine or_iff_not_imp_right.2 fun other => ?_
      have kept : ∀ b us, t.isOptional b us = false := by
        intro b us
        unfold isOptional
        split <;> first | exact absurd ⟨_, rfl⟩ other | rfl
      have plain : t ∈ undoc (Source.ofText text).file.layout.tokens :=
        List.mem_filter.2 ⟨ht, by simp [hd]⟩
      have found := mem_essential kept plain false
      rw [← layout_alike h] at found
      exact (List.mem_filter.1 ((essential_sublist _ _).subset found)).1

/-- The tokens of the tree of a text read back. -/
theorem reads_layout (h : (Source.ofText text).hasErrors = false) :
    ∀ t ∈ (Source.ofText text).file.layout.tokens, t.Reads := by
  intro t ht
  rcases mem_layout h ht with ht | ⟨s, rfl⟩
  · exact reads_of_mem ht (clean_tokens h t ht)
  · exact reads_symbol s

/-- The formatted text has the tokens of the tree. -/
theorem tokensOf_formatted (h : (Source.ofText text).hasErrors = false) :
    tokensOf (Source.ofText text).formatted = (Source.ofText text).file.layout.tokens := by
  have tokens := Layout.tokens_lexemes (File.fits (Source.ofText text).file).isChain (reads_layout h)
    Place.first
  rwa [tokensOf, lexemes, Source.formatted, File.text, String.toList_ofList]

theorem clean_formatted (h : (Source.ofText text).hasErrors = false) :
    Lexeme.AreClean (lexemes (Source.ofText text).formatted) := by
  intro x hx reason broken
  have mem : x.token ∈ tokensOf (Source.ofText text).formatted := List.mem_map_of_mem hx
  rw [tokensOf_formatted h, broken] at mem
  rcases mem_layout h mem with mem | ⟨s, eq⟩
  · exact clean_tokens h _ mem reason rfl
  · cases eq

/-- Whatever was left out at its end, a doc comment that ends in a line with something in it
    is written as it was read. -/
theorem linesOf_doc {d : String} {i : Item} (hi : i ∈ Item.ofLexemes (lexemes text)) (hd : d ∈ i.doc)
    (full : ¬ [.doc "", i.token] <:+: tokensOf text) : Item.joinDocs (linesOf (some d)) = some d := by
  obtain ⟨lines, before, behind, ne, rfl, eq⟩ := doc_item hi hd
  have written : ∀ line ∈ lines, .doc line ∈ tokensOf text := fun line hl => by
    rw [eq]
    simp [hl]
  have last : lines.getLast? ≠ some "" := by
    intro last
    obtain ⟨init, rfl⟩ := List.getLast?_eq_some_iff.1 last
    exact full ⟨before ++ init.map .doc, behind, by rw [eq]; simp⟩
  rw [linesOf_join fun line hl => newline_of_mem (written line hl), if_neg last]
  cases lines with
  | nil => exact absurd rfl ne
  | cons line lines => rfl

/-- Formatting keeps the tokens of a text without errors: the formatted text has no broken
    tokens, and its tokens are the same, up to doc comments and optional punctuation. -/
theorem formatting_keeps_tokens (text : String) (h : (Source.ofText text).hasErrors = false) :
    Lexeme.AreClean (lexemes (Source.ofText text).formatted) ∧
      essential (undoc (tokensOf (Source.ofText text).formatted)) = essential (undoc (tokensOf text)) := by
  refine ⟨clean_formatted h, ?_⟩
  rw [tokensOf_formatted h]
  exact (layout_alike h false).symm

/-- The comma in front of the parenthesis and the bar after `with` are left out. -/
theorem formatting_keeps_tokens_comma :
    (Source.ofText "let x = match (y, 1.50,) with | a => \"b\\\"\"").hasErrors = false ∧
      Lexeme.AreClean (lexemes (Source.ofText
        "let x = match (y, 1.50,) with | a => \"b\\\"\"").formatted) ∧
      essential (undoc (tokensOf (Source.ofText
        "let x = match (y, 1.50,) with | a => \"b\\\"\"").formatted)) =
        essential (undoc (tokensOf "let x = match (y, 1.50,) with | a => \"b\\\"\"")) :=
  have clean : (Source.ofText "let x = match (y, 1.50,) with | a => \"b\\\"\"").hasErrors = false := by
    decide +kernel
  ⟨clean, formatting_keeps_tokens _ clean⟩

/-- The layout of a file that was read without errors is read as the same file, places aside,
    and again without errors. -/
theorem Reading.file_respelled {s u : Reading} (clean : Clean s s.file.2) (regular : Regular s.rest)
    (copies : u.rest.map Item.bare = bareAfter [] s.file.1.layout.tokens) :
    u.file.2.recorded.filter Diagnostic.isError = u.recorded.filter Diagnostic.isError ∧
      respan .placeless u.file.1 = respan .placeless s.file.1 := by
  obtain ⟨deps, ds, u', run, same, sames, hu, -, errors⟩ :=
    (fileParts_spell (m := .canonical) (Nested.spelled_upTo _) (lays_upTo _)
      s.fileParts_ok.2.1 clean).2.2 regular (copies.trans (congrArg _ (tokens_file _)))
      (List.append_nil _).symm trivial rfl rfl
  rw [bind_of_ok (declarations_end hu), u.fileParts_ok.2.2] at run
  obtain ⟨parts, rfl⟩ := EStateM.Result.ok.inj run
  obtain ⟨deps_eq, ds_eq⟩ := Prod.mk.inj parts
  rw [List.append_nil] at ds_eq
  refine ⟨errors, ?_⟩
  have file_eq : ∀ f : File, respan Change.placeless f =
      ⟨respan .placeless f.dependencies, respan .placeless f.declarations, Span.zero⟩ := fun _ => rfl
  rw [file_eq, file_eq, deps_eq, ds_eq, show respan Change.placeless deps = _ from same,
    show respan Change.placeless ds = _ from sames]
  rfl

/-- A formatted text has no errors and the tree of the text that was formatted, places aside,
    unless that has a bar between `with` and a brace or a declaration, or a doc comment that
    ends in an empty line. -/
theorem formatting_keeps_tree (text : String) (h : (Source.ofText text).hasErrors = false)
    (bars : ∀ t, [.keyword .with_, .symbol .pipe, t] <:+: undoc (tokensOf text) →
      t ≠ .symbol .leftBrace ∧ t.startsDeclaration = false)
    (docs : ∀ t : Token, t.startsDeclaration → ¬ [.doc "", t] <:+: tokensOf text) :
    (Source.ofText (Source.ofText text).formatted).hasErrors = false ∧
      respan .placeless (Source.ofText (Source.ofText text).formatted).file =
        respan .placeless (Source.ofText text).file := by
  have regular : Regular (Source.reading text).rest := by
    constructor
    · intro t ts suffix
      refine bars t ?_
      rw [← items_tokens]
      exact List.IsInfix.trans ⟨[], ts, rfl⟩ suffix.isInfix
    · exact fun i hi declares d hd => linesOf_doc hi hd (docs _ declares)
  have copies : (Source.reading (Source.ofText text).formatted).rest.map Item.bare =
      bareAfter [] (Source.ofText text).file.layout.tokens := by
    rw [← tokensOf_formatted h]
    exact items_bare _
  obtain ⟨errors, same⟩ := Reading.file_respelled (clean_reading h) regular copies
  exact ⟨Source.hasErrors_eq_false.2 (Source.errors_eq_nil.2 ⟨clean_formatted h, errors⟩), same⟩

/-- A bar in front of a name is left out without harm. -/
theorem formatting_keeps_tree_name :
    (Source.ofText (Source.ofText "/// a\nlet x = match y with | z => (1, 2,)").formatted).hasErrors =
        false ∧
      respan .placeless
          (Source.ofText (Source.ofText "/// a\nlet x = match y with | z => (1, 2,)").formatted).file =
        respan .placeless (Source.ofText "/// a\nlet x = match y with | z => (1, 2,)").file := by
  refine formatting_keeps_tree "/// a\nlet x = match y with | z => (1, 2,)" (by decide +kernel)
    (fun t h => ?_) (fun t declares h => ?_)
  · have table : ∀ t ∈ undoc (tokensOf "/// a\nlet x = match y with | z => (1, 2,)"),
        [.keyword .with_, .symbol .pipe, t] <:+: undoc (tokensOf "/// a\nlet x = match y with | z => (1, 2,)") →
        t ≠ .symbol .leftBrace ∧ t.startsDeclaration = false := by decide +kernel
    exact table t (h.subset (by simp)) h
  · have table : Token.doc "" ∉ tokensOf "/// a\nlet x = match y with | z => (1, 2,)" := by decide +kernel
    exact table (h.subset (by simp))

/-- A doc comment between a bar and a declaration keeps nothing apart: the bar is left out,
    and the arm is not found again. -/
theorem documented_arm_lost :
    (Source.ofText "let y = match x with |\n/// d\nlet z = 1; z => c").hasErrors = false ∧
      (∀ t, [.keyword .with_, .symbol .pipe, t] <:+:
          tokensOf "let y = match x with |\n/// d\nlet z = 1; z => c" →
        t ≠ .symbol .leftBrace ∧ t.startsDeclaration = false) ∧
      (∀ t : Token, t.startsDeclaration →
        ¬ [.doc "", t] <:+: tokensOf "let y = match x with |\n/// d\nlet z = 1; z => c") ∧
      (Source.ofText (Source.ofText
        "let y = match x with |\n/// d\nlet z = 1; z => c").formatted).hasErrors = true := by
  refine ⟨by decide +kernel, fun t h => ?_, fun t _ h => ?_, by decide +kernel⟩
  · have table : ∀ t ∈ tokensOf "let y = match x with |\n/// d\nlet z = 1; z => c",
        [.keyword .with_, .symbol .pipe, t] <:+:
          tokensOf "let y = match x with |\n/// d\nlet z = 1; z => c" →
        t ≠ .symbol .leftBrace ∧ t.startsDeclaration = false := by decide +kernel
    exact table t (h.subset (by simp)) h
  · have table : Token.doc "" ∉ tokensOf "let y = match x with |\n/// d\nlet z = 1; z => c" := by
      decide +kernel
    exact table (h.subset (by simp))

end Formatted

end Mim
