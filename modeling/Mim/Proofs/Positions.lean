import Mathlib.Data.List.DropRight
import Mim.Proofs.Tiling

/-! # Positions agree with spans

The place that is kept from lexeme to lexeme is the one that counting from the start of the
text gives, and its position says on which line it is and how far into it.
-/

namespace Mim

open Scan

/-- The characters of a text behind its last newline. -/
def lastLine (cs : List Char) : List Char := cs.rtakeWhile (· != '\n')

@[simp] theorem lastLine_newline (cs : List Char) : lastLine (cs ++ ['\n']) = [] := by
  simp [lastLine]

theorem lastLine_concat {c : Char} (h : c ≠ '\n') (cs : List Char) :
    lastLine (cs ++ [c]) = lastLine cs ++ [c] := by
  simp [lastLine, h]

/-- Counting character by character gives the line and the column. -/
theorem Position.foldl_advance (cs : List Char) :
    cs.foldl Position.advance Position.first = ⟨1 + cs.count '\n', 1 + (lastLine cs).length⟩ := by
  induction cs using List.reverseRecOn with
  | nil => rfl
  | append_singleton cs c ih =>
      rw [List.foldl_append, ih]
      by_cases newline : c = '\n'
      · subst newline
        simp [Position.advance, Nat.add_assoc]
      · simp [Position.advance, newline, lastLine_concat newline, Nat.add_assoc]

/-- The position of a place is counted apart from its offset. -/
theorem Place.position_after (place : Place) (cs : List Char) :
    (place.after cs).position = cs.foldl Position.advance place.position := by
  induction cs generalizing place with
  | nil => rfl
  | cons c cs ih => exact ih (place.advance c)

/-- A token of a text starts where what is in front of it leads to. -/
theorem Lexeme.exists_divides {text : String} {x : Lexeme} (h : x ∈ lexemes text) :
    ∃ before word behind, x.span.Divides text.toList before word behind ∧
      x.position = (Place.first.after before).position := by
  obtain ⟨before, c, rest, split, taken⟩ := lexemesFrom_taken h
  obtain ⟨token, -, rfl⟩ := Option.map_eq_some_iff.1 taken
  have offset (cs : List Char) : (Place.first.after cs).offset = String.utf8Len cs := by
    rw [Place.offset_after, Place.first, Nat.zero_add]
  refine ⟨before, c :: rest.take (first c rest).more, rest.drop (first c rest).more, ⟨?_, ?_, ?_⟩, rfl⟩
  · rw [split, List.append_assoc, List.cons_append, List.take_append_drop]
  · exact offset before
  · rw [← offset, Place.after_append]

/-- The position of every token of a text is the first one advanced over the characters in
    front of the token: its line counts the newlines among them, and its column the
    characters behind the last of these. -/
theorem positions_agree_with_spans (text : String) (x : Lexeme) (h : x ∈ lexemes text) :
    ∃ before word behind, x.span.Divides text.toList before word behind ∧
      x.position = before.foldl Position.advance Position.first ∧
      x.position.line = 1 + before.count '\n' ∧ x.position.column = 1 + (lastLine before).length := by
  obtain ⟨before, word, behind, divides, position⟩ := Lexeme.exists_divides h
  have counted : x.position = before.foldl Position.advance Position.first := by
    rw [position, Place.position_after, Place.first]
  refine ⟨before, word, behind, divides, counted, ?_, ?_⟩
  · rw [counted, Position.foldl_advance]
  · rw [counted, Position.foldl_advance]

/-- The point that a numeral left to a name, behind a string and a comment that go over more
    than one line each. -/
theorem positions_agree_with_spans_member :
    let text := "\"é\n\" /* \n */ ~1.x"
    let x : Lexeme := ⟨.symbol .dot, ⟨3, 7⟩, ⟨16, 17⟩, false⟩
    x ∈ lexemes text ∧ ∃ before word behind, x.span.Divides text.toList before word behind ∧
      x.position = before.foldl Position.advance Position.first ∧
      x.position.line = 1 + before.count '\n' ∧ x.position.column = 1 + (lastLine before).length := by
  intro text x
  have here : x ∈ lexemes text := by decide +kernel
  exact ⟨here, positions_agree_with_spans text x here⟩

end Mim
