import Mim.Proofs.Notes
import Mim.Proofs.Positions
import Mim.Proofs.Reports

/-! # Labels can be placed

Whatever is reported of a text has a span that can be cut out of the text: the span of one of
its tokens or, where the input ends too early, the empty one behind the last token.
-/

namespace Mim

namespace Span.Divides

variable {place : Span} {text : String} {before word behind : List Char}

/-- A stretch of a text starts before it ends, and lies in the text. -/
theorem bounds (h : place.Divides text.toList before word behind) :
    place.start ≤ place.stop ∧ place.stop ≤ text.utf8ByteSize := by
  have size : text.utf8ByteSize = String.utf8Len (before ++ word ++ behind) := by
    rw [← h.text_eq, ← String.utf8ByteSize_ofList, String.ofList_toList]
  simp only [h.start_eq, h.stop_eq, size, String.utf8Len_append]
  omega

/-- The empty stretch behind it. -/
theorem point (h : place.Divides text.toList before word behind) :
    (Span.point place.stop).Divides text.toList (before ++ word) [] behind where
  text_eq := by rw [List.append_nil, h.text_eq]
  start_eq := h.stop_eq
  stop_eq := by rw [List.append_nil]; exact h.stop_eq

end Span.Divides

/-- What a token has to report is about its place. -/
theorem Lexeme.span_of_mem_diagnostics {x : Lexeme} {d : Diagnostic} (h : d ∈ x.diagnostics) :
    d.span = x.span := by
  unfold diagnostics at h
  cases x.token <;> cases x.beforeMember <;> aesop

/-- The items of a text end where its last token that is no doc comment does. -/
theorem Item.endAfter_ofLexemes {xs : List Lexeme} {x : Lexeme}
    (h : (Lexeme.solid xs).getLast? = some x) : endAfter 0 (ofLexemes xs) = x.span.stop := by
  have spans := congrArg List.getLast? (map_ofLexemesAfter (fun _ place => place) xs [])
  rw [List.getLast?_map, List.getLast?_map, h] at spans
  obtain ⟨i, last, span⟩ := Option.map_eq_some_iff.1 spans
  rw [ofLexemes, endAfter_of_getLast? last, span]

/-- What is reported of a text comes from one of its tokens or from its grammar. -/
theorem Source.mem_diagnostics {text : String} {d : Diagnostic} (h : d ∈ (ofText text).diagnostics) :
    (∃ x ∈ lexemes text, d ∈ x.diagnostics) ∨ d ∈ (reading text).file.2.recorded := by
  have mem := (Diagnostic.sort_perm _).mem_iff.1 h
  rw [List.mem_append, lexical, List.mem_flatMap] at mem
  apply mem.imp_right
  intro recorded
  exact List.mem_reverse.1 ((Diagnostic.sort_perm _).mem_iff.1 recorded)

/-- What the grammar reports stands at a token, or behind the last one that it has seen. -/
theorem Diagnostic.recorded_place {text : String} {d : Diagnostic}
    (h : d ∈ (Source.reading text).file.2.recorded) : (∃ x ∈ lexemes text, x.span = d.span) ∨
      ∃ expected, d.cause = .grammar (.unexpectedEnd expected) ∧
        ∃ x, (Lexeme.solid (lexemes text)).getLast? = some x ∧ d.span = Span.point x.span.stop := by
  cases Reading.file_concerns _ d h with
  | token _ marks =>
      obtain ⟨i, hi, place, -⟩ := marks
      obtain ⟨x, hx, -, -, span⟩ := Item.exists_lexeme hi
      exact .inl ⟨x, hx, span.trans place⟩
  | @stop expected eq =>
      cases last : (Lexeme.solid (lexemes text)).getLast? with
      | some x =>
          refine .inr ⟨expected, by rw [eq], x, rfl, ?_⟩
          rw [eq, Item.endAfter_ofLexemes last]
      | none =>
          -- without a token there is nothing to read, and nothing is missing
          have none : Item.ofLexemes (lexemes text) = [] := by
            have spans := Item.map_ofLexemesAfter (fun _ place => place) (lexemes text) []
            rw [List.getLast?_eq_none_iff.1 last] at spans
            exact List.map_eq_nil_iff.1 spans
          have quiet : (Reading.start []).file.2.recorded = [] := rfl
          rw [Source.reading, none, quiet] at h
          cases h

/-- Every diagnostic of a text, an error or a note, has a span that starts before it ends,
    ends in the text, and has both ends between two characters. It is the span of a token or,
    for an error of input that ends too early only, the empty one at the end of the last token
    that is no doc comment. -/
theorem labels_can_be_placed (text : String) (d : Diagnostic) (h : d ∈ (Source.ofText text).diagnostics) :
    d.span.start ≤ d.span.stop ∧ d.span.stop ≤ text.utf8ByteSize ∧
      (∃ before word behind, d.span.Divides text.toList before word behind) ∧
      ((∃ x ∈ lexemes text, x.span = d.span) ∨
        ∃ expected, d.cause = .grammar (.unexpectedEnd expected) ∧
          ∃ x, (Lexeme.solid (lexemes text)).getLast? = some x ∧ d.span = Span.point x.span.stop) := by
  have place : (∃ x ∈ lexemes text, x.span = d.span) ∨
      ∃ expected, d.cause = .grammar (.unexpectedEnd expected) ∧
        ∃ x, (Lexeme.solid (lexemes text)).getLast? = some x ∧ d.span = Span.point x.span.stop := by
    rcases Source.mem_diagnostics h with ⟨x, hx, lexical⟩ | recorded
    · exact .inl ⟨x, hx, (Lexeme.span_of_mem_diagnostics lexical).symm⟩
    · exact Diagnostic.recorded_place recorded
  obtain ⟨before, word, behind, divides⟩ :
      ∃ before word behind, d.span.Divides text.toList before word behind := by
    rcases place with ⟨x, hx, span⟩ | ⟨-, -, x, last, span⟩
    · obtain ⟨before, word, behind, divides, -⟩ := Lexeme.exists_divides hx
      exact ⟨before, word, behind, span ▸ divides⟩
    · have hx := (List.mem_filter.1 (List.mem_of_getLast? last)).1
      obtain ⟨before, word, behind, divides, -⟩ := Lexeme.exists_divides hx
      exact ⟨before ++ word, [], behind, span ▸ divides.point⟩
  exact ⟨divides.bounds.1, divides.bounds.2, ⟨before, word, behind, divides⟩, place⟩

/-- A declaration that ends too early, with a character of two bytes in it and a doc comment
    behind it. -/
theorem labels_can_be_placed_end :
    let text := "let é = // \n/// d"
    let d : Diagnostic := ⟨.grammar (.unexpectedEnd "expression"), ⟨8, 8⟩⟩
    d ∈ (Source.ofText text).diagnostics ∧
      d.span.start ≤ d.span.stop ∧ d.span.stop ≤ text.utf8ByteSize ∧
      (∃ before word behind, d.span.Divides text.toList before word behind) ∧
      ((∃ x ∈ lexemes text, x.span = d.span) ∨
        ∃ expected, d.cause = .grammar (.unexpectedEnd expected) ∧
          ∃ x, (Lexeme.solid (lexemes text)).getLast? = some x ∧ d.span = Span.point x.span.stop) := by
  intro text d
  have reported : d ∈ (Source.ofText text).diagnostics := by decide +kernel
  exact ⟨reported, labels_can_be_placed text d reported⟩

end Mim
