import Mim.Proofs.Lexing.Parts
import Mim.Proofs.Lexing.Rules
import Mim.Source

/-! # Literals read back

The text of a literal is one token, and that token is the literal, for every value that a
source text can spell.
-/

namespace Mim

open Shape Scan

/-- A value that a source text can spell. A string is what stands for the inside of one. -/
inductive Literal.IsSpelled : Literal → Prop where
  | bool (value : Bool) : IsSpelled (.bool value)
  | int {value : Int} : Numeral.isInt128 value → IsSpelled (.int value)
  | float (value : Binary64) : IsSpelled (.float value)
  | string {body : List Char} : body ∈ Pattern.stringBody →
    IsSpelled (.string (String.ofList (Quoted.decode body)))
  | char (value : Char) : IsSpelled (.char value)

/-- A rule reads no other values. -/
theorem Rule.IsRead.isSpelled {w : List Char} {l : Literal} (h : IsRead w (.literal l)) : l.IsSpelled := by
  obtain ⟨rule, matched, reads⟩ := h
  cases rule with
  | spelling text token listed =>
      obtain rfl : .literal l = token := reads
      have only : text = "tt".toList ∧ l = .bool true ∨ text = "ff".toList ∧ l = .bool false := by
        simpa [Token.spellings, Token.signs] using listed
      obtain ⟨-, rfl⟩ | ⟨-, rfl⟩ := only
      · exact .bool true
      · exact .bool false
  | integer =>
      obtain ⟨value, found, eq⟩ := reads
      cases eq
      exact .int (Numeral.isInt128_of_int? found)
  | decimal | hexadecimal =>
      obtain ⟨value, -, eq⟩ := reads
      cases eq
      exact .float value
  | string =>
      obtain ⟨body, rfl, eq⟩ := reads
      cases eq
      obtain ⟨_, split, hbody⟩ := Pattern.mem_just_mul.1 matched
      obtain rfl := (List.cons.inj split).2
      obtain ⟨body', inside, _, quote, same⟩ := Language.mem_mul.1 hbody
      obtain rfl := Pattern.mem_just.1 quote
      exact .string (List.append_cancel_right same ▸ inside)
  | char =>
      obtain ⟨c, ⟨-, eq⟩ | ⟨-, eq⟩⟩ := reads
      all_goals
        cases eq
        exact .char _
  | annex =>
      obtain ⟨_, -, -, eq⟩ := reads
      cases eq
  | doc =>
      obtain ⟨_, -, eq⟩ := reads
      cases eq
  | word => cases reads
  | openString | blanks | lineComment | blockComment => exact reads.elim

/-- The literals of a text are values that a text can spell. -/
theorem Lexeme.isSpelled {place : Place} {cs : List Char} {x : Lexeme} {l : Literal}
    (hx : x ∈ lexemesFrom place cs) (value : x.token = .literal l) : l.IsSpelled := by
  obtain ⟨before, c, rest, -, taken⟩ := lexemesFrom_taken hx
  obtain ⟨t, token, rfl⟩ := Option.map_eq_some_iff.1 taken
  obtain rfl : t = .literal l := value
  cases member : (first c rest).beforeMember with
  | false => exact (first_read token (fun _ => nofun) member).isSpelled
  | true =>
      obtain ⟨int, -⟩ := first_split member
      have reads := Option.some.inj (int.symm.trans token)
      unfold intToken at reads
      split at reads
      · next found =>
          cases reads
          exact .int (Numeral.isInt128_of_int? found)
      · cases reads

namespace Token

/-- The inside of a string is taken up to the quote behind it, and is written as it was. -/
theorem reads_string {body : List Char} (h : body ∈ Pattern.stringBody) :
    (literal (.string (String.ofList (Quoted.decode body)))).Reads := by
  have inside : stringBody (body ++ ['"']) = body.length := by
    rw [stringBody_mem h, stringBody_quote, Nat.add_zero]
  have written : Quoted.encode (Quoted.decode body) = body := by
    have encode := encode_decode (body ++ ['"'])
    rwa [inside, List.take_left' rfl] at encode
  have closed : Scan.string (body ++ ['"']) =
      .token (body.length + 1) (.literal (.string (String.ofList (Quoted.decode body)))) := by
    rw [Scan.string, inside, List.drop_left' rfl, List.take_left' rfl]
    rfl
  refine ⟨'"', body ++ ['"'], ?_, ?_⟩
  · rw [text_literal, Literal.text, String.toList_ofList, written]
    rfl
  · rw [first_string, closed]
    exact ⟨(@List.length_append _ body ['"']).symm, rfl⟩

theorem reads_literal {l : Literal} (h : l.IsSpelled) : (literal l).Reads := by
  cases h with
  | bool value => exact reads_bool value
  | int range => exact reads_int range
  | float value => exact reads_float value
  | string body => exact reads_string body
  | char value => exact reads_char value

/-- A text that is one token has no other lexeme. -/
theorem Reads.lexemes_text {t : Token} (h : t.Reads) : lexemes (String.ofList t.text) =
    [⟨t, Position.first, ⟨0, (String.ofList t.text).utf8ByteSize⟩, false⟩] := by
  obtain ⟨c, w, text, more, token⟩ := h
  rw [lexemes, String.toList_ofList, String.utf8ByteSize_ofList, text, lexemesFrom_cons, more,
    List.take_length, List.drop_length, lexemesFrom_nil, List.append_nil, lexeme?, token,
    whole_of_more more,
    Option.map_some, Option.toList_some, Place.offset_after]
  exact congrArg (fun stop => [Lexeme.mk t Position.first ⟨0, stop⟩ false]) (Nat.zero_add _)

end Token

/-- The text of a literal has the literal as its only token, over the whole text, and there is
    nothing to report of it. -/
theorem literals_read_back (l : Literal) (h : l.IsSpelled) :
    lexemes (String.ofList l.text) =
        [⟨.literal l, Position.first, ⟨0, (String.ofList l.text).utf8ByteSize⟩, false⟩] ∧
      Source.lexical (String.ofList l.text) = [] := by
  have alone := (Token.reads_literal h).lexemes_text
  rw [Token.text_literal] at alone
  refine ⟨alone, ?_⟩
  rw [Source.lexical, alone]
  rfl

/-- A quote that is escaped, and an escaped backslash in front of the last one. -/
theorem literals_read_back_quote :
    Literal.IsSpelled (.string "a\"b\\\\") ∧
      lexemes "\"a\\\"b\\\\\"" = [⟨.literal (.string "a\"b\\\\"), ⟨1, 1⟩, ⟨0, 8⟩, false⟩] ∧
      Source.lexical "\"a\\\"b\\\\\"" = [] := by
  have body : "a\\\"b\\\\".toList ∈ Pattern.stringBody := take_stringBody "a\\\"b\\\\".toList
  have spelled : Literal.IsSpelled (.string "a\"b\\\\") := .string body
  exact ⟨spelled, literals_read_back (.string "a\"b\\\\") spelled⟩

end Mim
