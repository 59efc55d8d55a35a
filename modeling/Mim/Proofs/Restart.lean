import Mim.Proofs.Isolation

/-! # Lexing starts again behind a newline

No lexeme of a text without broken text goes on past its end, if a newline follows. So what is
behind the newline has the lexemes that it has by itself, further on and further down.
-/

namespace Mim

open Scan

/-- The same place in a text with `n` more bytes on `lines` more lines in front. -/
def Place.further (n lines : Nat) (p : Place) : Place :=
  ⟨p.offset + n, ⟨p.position.line + lines, p.position.column⟩⟩

/-- The same lexeme in a text with `n` more bytes on `lines` more lines in front. -/
def Lexeme.further (n lines : Nat) (x : Lexeme) : Lexeme :=
  { x with
    position := ⟨x.position.line + lines, x.position.column⟩
    span := x.span.shift n }

namespace Place

variable {n lines : Nat}

theorem further_advance (p : Place) (c : Char) :
    (p.further n lines).advance c = (p.advance c).further n lines := by
  unfold advance further Position.advance
  split <;> simp <;> omega

theorem further_after (p : Place) (cs : List Char) :
    (p.further n lines).after cs = (p.after cs).further n lines := by
  induction cs generalizing p with
  | nil => rfl
  | cons c cs ih =>
      have step : (p.further n lines).after (c :: cs) = ((p.advance c).further n lines).after cs :=
        congrArg (Place.after · cs) (further_advance p c)
      rw [step, ih]
      rfl

/-- Only newlines lead to another line. -/
theorem line_after (p : Place) (cs : List Char) :
    (p.after cs).position.line = p.position.line + cs.count '\n' := by
  induction cs generalizing p with
  | nil => rfl
  | cons c cs ih =>
      have step : (p.after (c :: cs)).position.line = ((p.advance c).after cs).position.line := rfl
      rw [step, ih]
      by_cases newline : c = '\n'
      · subst newline
        rw [List.count_cons_self]
        simp only [advance, Position.advance, if_true]
        omega
      · rw [List.count_cons_of_ne newline]
        simp [advance, Position.advance, newline]

/-- Behind a newline a line starts, as at the start of a text. -/
theorem after_newline (cs : List Char) : (Place.first.after cs).advance '\n' =
    Place.first.further (String.utf8Len cs + 1) (cs.count '\n' + 1) := by
  have offset := Place.offset_after Place.first cs
  have line := line_after Place.first cs
  simp only [advance, further, Position.advance, if_true, offset, line]
  simp only [Place.first, Position.first, Nat.add_assoc]
  rfl

end Place

namespace Lexeme

variable {n lines : Nat}

theorem lexeme?_further (p : Place) (word : List Char) (taken : Taken) :
    lexeme? (p.further n lines) word taken = (lexeme? p word taken).map (further n lines) := by
  unfold lexeme?
  rw [Place.further_after]
  cases taken.token? <;> rfl

/-- A text has the same lexemes behind more lines. -/
theorem lexemesFrom_further (p : Place) (cs : List Char) :
    lexemesFrom (p.further n lines) cs = (lexemesFrom p cs).map (further n lines) := by
  induction cs using Scan.induction generalizing p with
  | nil => rw [lexemesFrom_nil, lexemesFrom_nil, List.map_nil]
  | cons c cs ih =>
      rw [lexemesFrom_cons, lexemesFrom_cons, Place.further_after, ih, lexeme?_further, List.map_append]
      cases lexeme? p (c :: cs.take (first c cs).more) (first c cs) <;> rfl

/-- What is reported of it is reported further on. -/
theorem diagnostics_further (x : Lexeme) :
    (x.further n lines).diagnostics = respan (Change.shift n) x.diagnostics := by
  unfold diagnostics further
  cases x.token <;> cases x.beforeMember <;> rfl

end Lexeme

/-- A text without broken text and a newline have no part in the lexemes of what is behind
    them: those are the ones that it has by itself, as many bytes further on and as many lines
    further down as there are in front, and so is what is reported of them. -/
theorem lexing_starts_again (a : String) (clean : Lexeme.AreClean (lexemes a)) (b : String) :
    lexemes (a ++ "\n" ++ b) = lexemes a ++
        (lexemes b).map (Lexeme.further (a.utf8ByteSize + 1) (a.toList.count '\n' + 1)) ∧
      Source.lexical (a ++ "\n" ++ b) =
        Source.lexical a ++ respan (Change.shift (a.utf8ByteSize + 1)) (Source.lexical b) := by
  have size : a.utf8ByteSize = String.utf8Len a.toList := by
    rw [← String.utf8ByteSize_ofList, String.ofList_toList]
  have split : (a ++ "\n" ++ b).toList = a.toList ++ '\n' :: b.toList := by simp
  have whole : lexemes (a ++ "\n" ++ b) = lexemes a ++
      (lexemes b).map (Lexeme.further (a.utf8ByteSize + 1) (a.toList.count '\n' + 1)) := by
    rw [lexemes, split, lexemesFrom_newline _ _ _ clean, Place.after_newline, ← size,
      Lexeme.lexemesFrom_further]
    rfl
  refine ⟨whole, ?_⟩
  rw [Source.lexical, whole, List.flatMap_append, List.flatMap_map]
  simp only [Lexeme.diagnostics_further]
  exact congrArg _ List.map_flatMap.symm

/-- The first text ends in a comment that goes over two lines, the second has a numeral in front
    of a member and a string that is not closed. -/
theorem lexing_starts_again_member :
    Lexeme.AreClean (lexemes "x /* \n */") ∧
      lexemes ("x /* \n */" ++ "\n" ++ "1.x \"") = lexemes "x /* \n */" ++
          (lexemes "1.x \"").map (Lexeme.further ("x /* \n */".utf8ByteSize + 1)
            ("x /* \n */".toList.count '\n' + 1)) ∧
      Source.lexical ("x /* \n */" ++ "\n" ++ "1.x \"") = Source.lexical "x /* \n */" ++
        respan (Change.shift ("x /* \n */".utf8ByteSize + 1)) (Source.lexical "1.x \"") := by
  have clean : Lexeme.AreClean (lexemes "x /* \n */") := by
    have only : lexemes "x /* \n */" = [⟨.ident "x", ⟨1, 1⟩, ⟨0, 1⟩, false⟩] := by decide +kernel
    rw [only]
    intro x hx reason broken
    rw [List.mem_singleton.1 hx] at broken
    cases broken
  exact ⟨clean, lexing_starts_again "x /* \n */" clean "1.x \""⟩

end Mim
