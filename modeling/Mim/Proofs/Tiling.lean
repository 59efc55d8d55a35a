import Mim.Proofs.Trivia

/-! # Tokens and what is between them

Every character of a text is in one token or is passed over. The tokens follow each other,
none of them empty, and nothing but blanks and plain comments stands in front of them,
between them and behind them, whatever is broken in the text.
-/

namespace Mim

open Shape Scan

/-- A place in a text, with what stands in front of it, in it and behind it. -/
structure Span.Divides (place : Span) (text before word behind : List Char) : Prop where
  text_eq : text = before ++ word ++ behind
  start_eq : place.start = String.utf8Len before
  stop_eq : place.stop = String.utf8Len (before ++ word)

/-- Where words stand in a text that begins at an offset, with nothing but blanks and plain
    comments around them. A comment behind the last word may end with the text. -/
inductive Tiles : Nat → List Char → List Span → Prop where
  | blank {start : Nat} {gap : List Char} : Trivia gap → Tiles start gap []
  | comment {start : Nat} {gap inside : List Char} : Trivia gap → '\n' ∉ inside →
    inside.head? ≠ some '/' → Tiles start (gap ++ '/' :: '/' :: inside) []
  | word {start : Nat} {gap word rest : List Char} {places : List Span} : Trivia gap → word ≠ [] →
    Tiles (start + String.utf8Len (gap ++ word)) rest places →
    Tiles start (gap ++ word ++ rest)
      (⟨start + String.utf8Len gap, start + String.utf8Len (gap ++ word)⟩ :: places)

theorem Trivia.append {s t : List Char} (hs : Trivia s) (ht : Trivia t) : Trivia (s ++ t) := by
  induction hs with
  | nil => exact ht
  | blank blank _ ih => exact .blank blank ih
  | block closed _ ih => simpa using Trivia.block closed ih
  | line within plain _ ih => simpa using Trivia.line within plain ih

namespace Tiles

variable {start : Nat} {cs : List Char} {places : List Span}

/-- More may be passed over in front. -/
theorem behind {front : List Char} (h : Trivia front)
    (tiles : Tiles (start + String.utf8Len front) cs places) : Tiles start (front ++ cs) places := by
  generalize hn : start + String.utf8Len front = n at tiles
  cases tiles with
  | blank gap => exact .blank (h.append gap)
  | comment gap within plain =>
      rw [← List.append_assoc]
      exact .comment (h.append gap) within plain
  | @word _ gap word rest places trivia filled tiles =>
      have place : n + String.utf8Len gap = start + String.utf8Len (front ++ gap) := by
        rw [String.utf8Len_append]
        omega
      have stop : n + String.utf8Len (gap ++ word) = start + String.utf8Len (front ++ gap ++ word) := by
        rw [List.append_assoc, String.utf8Len_append front]
        omega
      rw [stop] at tiles
      rw [place, stop, ← List.append_assoc, ← List.append_assoc]
      exact .word (h.append trivia) filled tiles

/-- Each place starts and ends between two characters. -/
theorem divides (tiles : Tiles start cs places) {place : Span} (h : place ∈ places) :
    ∃ before word behind, cs = before ++ word ++ behind ∧
      place.start = start + String.utf8Len before ∧
      place.stop = start + String.utf8Len (before ++ word) := by
  induction tiles with
  | blank | comment => cases h
  | @word start gap word rest places _ _ _ ih =>
      rcases List.mem_cons.1 h with rfl | h
      · exact ⟨gap, word, rest, rfl, rfl, rfl⟩
      · obtain ⟨before, word', behind, rfl, first, last⟩ := ih h
        refine ⟨gap ++ word ++ before, word', behind, by simp, ?_, ?_⟩
        · rw [first, String.utf8Len_append _ before]
          omega
        · rw [last, List.append_assoc _ before, String.utf8Len_append _ (before ++ word')]
          omega

end Tiles

/-- A block comment ends at the first end of one. -/
theorem Shape.throughCommentEnd_some {cs : List Char} {n : Nat} (h : throughCommentEnd cs = some n) :
    ∃ inside rest, cs = inside ++ '*' :: '/' :: rest ∧ ¬ ['*', '/'] <:+: inside := by
  fun_induction throughCommentEnd cs generalizing n with
  | case1 rest => exact ⟨[], rest, rfl, by simp⟩
  | case2 c cs no ih =>
      obtain ⟨k, hk, -⟩ := Option.map_eq_some_iff.1 h
      obtain ⟨inside, rest, rfl, within⟩ := ih hk
      refine ⟨c :: inside, rest, rfl, fun inner => ?_⟩
      rcases List.infix_cons_iff.1 inner with first | later
      · -- then the comment would have ended at its first character
        obtain ⟨rfl, slash⟩ := List.cons_prefix_cons.1 first
        obtain ⟨tail, rfl⟩ := slash
        exact no _ rfl rfl
      · exact within later
  | case3 => cases h

namespace Scan

variable {c : Char} {cs : List Char}

theorem percent_isSome (cs : List Char) : (percent cs).token?.isSome := by
  simp only [percent]
  split
  · rfl
  · split
    · split
      · rfl
      · split
        · split <;> rfl
        · rfl
    · rfl

theorem string_isSome (cs : List Char) : (string cs).token?.isSome := by
  simp only [string]
  split <;> rfl

theorem char_isSome (cs : List Char) : (char cs).token?.isSome := by
  unfold char
  split
  · split <;> rfl
  · split <;> rfl
  · rfl

theorem number_isSome (text : List Char) (length : Nat) (isReal : Bool) :
    (number text length isReal).token?.isSome := by
  simp only [number]
  split
  · rfl
  · split
    · rfl
    · split <;> rfl

/-- What is passed over behind a slash is a comment, which may be the rest of the text. -/
theorem slash_none (h : (slash cs).token? = none) :
    (∃ gap rest, '/' :: cs = gap ++ rest ∧ gap ≠ [] ∧ Trivia gap) ∨
      ∃ inside, cs = '/' :: inside ∧ '\n' ∉ inside ∧ inside.head? ≠ some '/' := by
  unfold slash at h
  split at h
  · cases h
  · next inside plain =>
      have head : inside.head? ≠ some '/' := by
        intro head
        obtain ⟨rest, rfl⟩ := List.head?_eq_some_iff.1 head
        exact plain rest rfl
      by_cases newline : '\n' ∈ inside
      · obtain ⟨line, rest, rfl, within⟩ := List.eq_append_cons_of_mem newline
        refine .inl ⟨'/' :: '/' :: (line ++ '\n' :: []), rest, by simp, by simp, .line within ?_ .nil⟩
        cases line with
        | nil => simp
        | cons d line => exact head
      · exact .inr ⟨inside, rfl, newline, head⟩
  · next inside =>
      split at h
      · next more closed =>
          obtain ⟨comment, rest, rfl, within⟩ := throughCommentEnd_some closed
          exact .inl ⟨'/' :: '*' :: (comment ++ '*' :: '/' :: []), rest, by simp, by simp, .block within .nil⟩
      · cases h
  · cases h

/-- What is passed over at the start of a text. -/
theorem first_none (h : (first c cs).token? = none) :
    (∃ gap rest, c :: cs = gap ++ rest ∧ gap ≠ [] ∧ Trivia gap) ∨
      ∃ inside, c :: cs = '/' :: '/' :: inside ∧ '\n' ∉ inside ∧ inside.head? ≠ some '/' := by
  have token : ∀ {x : Taken} {p : Prop}, x.token?.isSome → x.token? = none → p := by
    intro x p some none
    simp [none] at some
  rcases lead_cases c with blank | word | rfl | rfl | rfl | rfl | sign
  · exact .inl ⟨[c], cs, rfl, by simp, .blank blank .nil⟩
  · rw [first_word word] at h
    cases h
  · exact token (percent_isSome cs) h
  · exact token (string_isSome cs) h
  · exact token (char_isSome cs) h
  · rcases slash_none h with gap | ⟨inside, rfl, comment⟩
    · exact .inl gap
    · exact .inr ⟨inside, rfl, comment⟩
  · rw [first_sign sign] at h
    split at h
    · exact token (number_isSome _ _ _) h
    · cases h

end Scan

/-- A comment that ends with the text has no lexeme. -/
theorem lexemesFrom_comment {inside : List Char} (within : '\n' ∉ inside)
    (plain : inside.head? ≠ some '/') (place : Place) :
    lexemesFrom place ('/' :: '/' :: inside) = [] := by
  have whole : run (· != '\n') inside = inside.length := by
    apply run_eq_length
    rw [List.all_eq_true]
    intro c hc
    exact bne_iff_ne.2 fun newline => within (newline ▸ hc)
  have comment : first '/' ('/' :: inside) = .blank (1 + inside.length) := by
    rw [first_slash, slash_line, whole]
    rintro ds rfl
    exact plain rfl
  have skip := lexemesFrom_skip comment ('/' :: inside) [] (by simp) (by simp; omega) place
  rw [skip, lexemesFrom_nil]

/-- The lexemes of a text, wherever it stands, tile it. -/
theorem lexemesFrom_tiles (place : Place) (cs : List Char) :
    Tiles place.offset cs ((lexemesFrom place cs).map Lexeme.span) := by
  match cs with
  | [] =>
      rw [lexemesFrom_nil]
      exact .blank .nil
  | c :: cs =>
      cases taken : (first c cs).token? with
      | none =>
          rcases first_none taken with ⟨gap, rest, split, filled, trivia⟩ | ⟨inside, split, within, plain⟩
          · have shorter : rest.length < (c :: cs).length := by
              have := List.length_pos_iff.2 filled
              rw [split, List.length_append]
              omega
            have tiles := lexemesFrom_tiles (place.after gap) rest
            rw [Place.offset_after] at tiles
            rw [split, trivia.lexemesFrom]
            exact tiles.behind trivia
          · rw [split, lexemesFrom_comment within plain]
            exact .comment .nil within plain
      | some token =>
          have tiles := lexemesFrom_tiles (place.after (c :: cs.take (first c cs).more))
            (cs.drop (first c cs).more)
          rw [Place.offset_after] at tiles
          have word := @Tiles.word place.offset [] _ _ _ .nil (List.cons_ne_nil c _) tiles
          rw [lexemesFrom_cons, lexeme?, taken]
          simpa [Place.offset_after] using word
termination_by cs.length
decreasing_by
  · exact shorter
  · rw [List.length_drop, List.length_cons]
    omega

/-- The tokens of a text follow each other in it, none of them empty, and what is in front of
    them, between them and behind them is blanks and plain comments. Each of them starts and
    ends between two characters. -/
theorem tokens_tile_the_text (text : String) :
    Tiles 0 text.toList ((lexemes text).map Lexeme.span) ∧ Tidy Lexeme.span (lexemes text) ∧
      ∀ x ∈ lexemes text, ∃ before word behind, x.span.Divides text.toList before word behind := by
  have tiles : Tiles 0 text.toList ((lexemes text).map Lexeme.span) :=
    lexemesFrom_tiles Place.first text.toList
  refine ⟨tiles, (lexemesFrom_tidy Place.first text.toList).1, fun x hx => ?_⟩
  obtain ⟨before, word, behind, split, start, stop⟩ := tiles.divides (List.mem_map_of_mem hx)
  rw [Nat.zero_add] at start stop
  exact ⟨before, word, behind, split, start, stop⟩

/-- A numeral in front of a member, what is no token, and a string that is not closed. -/
example : (lexemes "1.x/**/ ~// \n\"").map Lexeme.span =
    [⟨0, 1⟩, ⟨1, 2⟩, ⟨2, 3⟩, ⟨8, 9⟩, ⟨13, 14⟩] := by
  decide +kernel

end Mim
