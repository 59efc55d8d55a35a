import Mim.Proofs.Lexing.Rules
import Mim.Proofs.Tiling

/-! # Lexemes are the longest matches

A lexeme is the longest part of the text that any rule matches where it starts, and its token
is the one that the rule reads from it. Only a numeral whose point is left to a member is
shorter, by that point.
-/

namespace Mim

open Shape Scan

/-- A lexeme that a rule reads as a token, in front of a text with which no rule matches more. -/
structure IsLongestMatch (lexeme behind : List Char) (t : Token) : Prop where
  read : Rule.IsRead lexeme t
  most {rule : Rule} {w : List Char} : w ∈ rule.pattern → w <+: lexeme ++ behind →
    w.length ≤ lexeme.length
  /-- A fixed spelling is no name, and nothing else that a rule reads from it. -/
  spelled {token : Token} : (lexeme, token) ∈ Token.spellings →
    t = token ∧ ∀ name, t ≠ .ident name

/-- A numeral whose point is left to a member: the longest match is a finite number that ends
    in the point, and what stands in front of the point is an integer, unless it is too large. -/
structure IsSplitNumeral (lexeme behind : List Char) (t : Token) : Prop where
  finite : ∃ value, Rule.IsRead (lexeme ++ ['.']) (.literal (.float value))
  member : ∃ c rest, behind = '.' :: c :: rest ∧ isWordStart c
  most {rule : Rule} {w : List Char} : w ∈ rule.pattern → w <+: lexeme ++ behind →
    w.length ≤ (lexeme ++ ['.']).length
  integer : (∃ value, Numeral.int? lexeme = some value ∧ t = .literal (.int value)) ∨
    Numeral.int? lexeme = none ∧ t = .error (.invalidNumber (String.ofList lexeme))

namespace Scan

variable {c : Char} {cs : List Char} {t : Token}

theorem first_isLongestMatch (taken : (first c cs).token? = some t)
    (clean : ∀ reason, t ≠ .error reason) (whole : (first c cs).beforeMember = false) :
    IsLongestMatch (c :: cs.take (first c cs).more) (cs.drop (first c cs).more) t where
  read := first_read taken clean whole
  most h hp := by
    rw [List.cons_append, List.take_append_drop] at hp
    rw [List.length_cons, List.length_take_of_le (first_le c cs)]
    exact first_most taken clean whole h hp
  spelled listed := by
    have same := first_spelled taken clean whole listed
    refine ⟨same, ?_⟩
    rintro name rfl
    rw [← same] at listed
    simp [Token.spellings, Token.signs] at listed

theorem first_isSplitNumeral (member : (first c cs).beforeMember)
    (taken : (first c cs).token? = some t) :
    IsSplitNumeral (c :: cs.take (first c cs).more) (cs.drop (first c cs).more) t := by
  obtain ⟨token, finite, behind, most⟩ := first_split member
  refine ⟨finite, behind, fun h hp => ?_, ?_⟩
  · rw [List.cons_append, List.take_append_drop] at hp
    rw [List.length_append, List.length_cons, List.length_take_of_le (first_le c cs)]
    exact most h hp
  · obtain rfl := Option.some.inj (token.symm.trans taken)
    unfold intToken
    split
    · next value found => exact .inl ⟨value, found, rfl⟩
    · next none => exact .inr ⟨none, rfl⟩

end Scan

/-- Every lexeme that is no broken text is the longest match of a rule where it starts, with
    the token that is fixed for its spelling, if one is. A numeral in front of a member is the
    longest match without its point. -/
theorem lexemes_are_longest (text : String) {x : Lexeme} (hx : x ∈ lexemes text) :
    ∃ before lexeme behind, x.span.Divides text.toList before lexeme behind ∧
      ((∀ reason, x.token ≠ .error reason) → x.beforeMember = false →
        IsLongestMatch lexeme behind x.token) ∧
      (x.beforeMember → IsSplitNumeral lexeme behind x.token) := by
  have offset : ∀ cs, (Place.first.after cs).offset = String.utf8Len cs := by
    intro cs
    rw [Place.offset_after]
    exact Nat.zero_add _
  obtain ⟨before, c, rest, split, taken⟩ := lexemesFrom_taken hx
  obtain ⟨t, token, rfl⟩ := Option.map_eq_some_iff.1 taken
  refine ⟨before, c :: rest.take (first c rest).more, rest.drop (first c rest).more, ⟨?_, ?_, ?_⟩,
    first_isLongestMatch token, fun member => first_isSplitNumeral member token⟩
  · rw [split, List.append_assoc, List.cons_append, List.take_append_drop]
  · exact offset before
  · exact (congrArg Place.offset (Place.after_append _ _ _).symm).trans (offset _)

/-- A keyword that begins with another one, and a numeral in front of a member. -/
theorem lexemes_are_longest_insert :
    (⟨.keyword .ins, ⟨1, 1⟩, ⟨0, 6⟩, false⟩ ∈ lexemes "insert 1.x" ∧
      ∃ before lexeme behind, Span.Divides ⟨0, 6⟩ "insert 1.x".toList before lexeme behind ∧
        IsLongestMatch lexeme behind (.keyword .ins)) ∧
    ⟨.literal (.int 1), ⟨1, 8⟩, ⟨7, 8⟩, true⟩ ∈ lexemes "insert 1.x" ∧
      ∃ before lexeme behind, Span.Divides ⟨7, 8⟩ "insert 1.x".toList before lexeme behind ∧
        IsSplitNumeral lexeme behind (.literal (.int 1)) := by
  have keyword : ⟨.keyword .ins, ⟨1, 1⟩, ⟨0, 6⟩, false⟩ ∈ lexemes "insert 1.x" := by decide +kernel
  have numeral : ⟨.literal (.int 1), ⟨1, 8⟩, ⟨7, 8⟩, true⟩ ∈ lexemes "insert 1.x" := by
    decide +kernel
  obtain ⟨before, lexeme, behind, place, longest, -⟩ := lexemes_are_longest "insert 1.x" keyword
  obtain ⟨before', lexeme', behind', place', -, split⟩ := lexemes_are_longest "insert 1.x" numeral
  exact ⟨⟨keyword, before, lexeme, behind, place, longest (fun _ => nofun) rfl⟩,
    numeral, before', lexeme', behind', place', split rfl⟩

/-- What begins like a longer lexeme and is none falls back to the longest that is one. -/
example : (lexemes "1e+x .bo").map Lexeme.token =
    [.literal (.int 1), .ident "e", .error .unrecognizedToken, .ident "x", .symbol .dot,
      .ident "bo"] := by
  decide +kernel

end Mim
