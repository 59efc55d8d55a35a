import Mathlib.Computability.Language
import Mim.Lexeme

/-! # The patterns of lexemes

What a lexeme may look like, as regular languages over characters, and the rules that tell
which token a word of each pattern is. Neither says anything about how a text is read.
-/

namespace Mim

open scoped Computability

namespace Pattern

open Shape

/-- One character of a class. -/
def oneOf (p : Char → Bool) : Language Char := {w | ∃ c, p c ∧ w = [c]}

/-- One given character. -/
def just (c : Char) : Language Char := oneOf (· == c)

/-- Any number of characters of a class. -/
def many (p : Char → Bool) : Language Char := (oneOf p)∗

/-- At least one character of a class. -/
def many1 (p : Char → Bool) : Language Char := oneOf p * many p

/-- A word of a pattern, or nothing. -/
def optional (l : Language Char) : Language Char := 1 + l

def word : Language Char := oneOf isWordStart * many isWordChar

def sign : Language Char := optional (oneOf fun c => c == '+' || c == '-')

def marked (isMark isDigit : Char → Bool) : Language Char :=
  just '0' * (oneOf isMark * many1 isDigit)

def natural : Language Char :=
  many1 Char.isDigit +
    (marked (fun c => c == 'b' || c == 'B') isBinaryDigit +
      (marked (fun c => c == 'o' || c == 'O') isOctalDigit +
        marked (fun c => c == 'x' || c == 'X') isHexDigit))

def power (isMark : Char → Bool) : Language Char := oneOf isMark * (sign * many1 Char.isDigit)

def pointed (isDigit : Char → Bool) : Language Char :=
  many1 isDigit * (just '.' * many isDigit) + just '.' * many1 isDigit

def fractional (isDigit isMark : Char → Bool) : Language Char :=
  pointed isDigit * optional (power isMark) + many1 isDigit * power isMark

def decimal : Language Char := fractional Char.isDigit fun c => c == 'e' || c == 'E'

def hexadecimal : Language Char :=
  just '0' * (oneOf (fun c => c == 'x' || c == 'X') *
    fractional isHexDigit fun c => c == 'p' || c == 'P')

/-- A character other than a quote and a backslash, or a backslash and any character. -/
def stringPart : Language Char :=
  oneOf (fun c => c != '"' && c != '\\') + just '\\' * oneOf fun _ => true

def stringBody : Language Char := stringPart∗

end Pattern

/-- Every fixed spelling, with its token. -/
def Token.spellings : List (List Char × Token) :=
  Keyword.all.map (fun k => (k.text.toList, .keyword k)) ++
    Keyword.aliases.map (fun s => (s.1.toList, .keyword s.2)) ++
    Primitive.words.map (fun ty => (ty.text.toList, .primitive ty)) ++
    [("tt".toList, .literal (.bool true)), ("ff".toList, .literal (.bool false)),
      ("%".toList, .percent)] ++ Token.signs

/-- The rules that match a part of a text. -/
inductive Rule where
  | spelling (text : List Char) (token : Token) (listed : (text, token) ∈ Token.spellings)
  | word
  | annex
  | integer
  | decimal
  | hexadecimal
  | string
  /-- A string as far as it goes, which is an error where it is not closed. -/
  | openString
  | char
  | doc
  | blanks
  | lineComment
  /-- The start of a block comment; where it ends is no matter of patterns. -/
  | blockComment

namespace Rule

open Pattern

/-- What a rule matches. -/
def pattern : Rule → Language Char
  | .spelling text _ _ => {text}
  | .word => Pattern.word
  | .annex =>
    just '%' * (Pattern.word * (just '.' * (Pattern.word * optional (just '.' * Pattern.word))))
  | .integer => sign * natural
  | .decimal => sign * Pattern.decimal
  | .hexadecimal => sign * Pattern.hexadecimal
  | .string => just '"' * (stringBody * just '"')
  | .openString => just '"' * stringBody
  | .char =>
    just '\'' * ((oneOf (fun c => c != '\'' && c != '\\') + just '\\' * oneOf (· != '\n')) * just '\'')
  | .doc => {"///".toList} * many (· != '\n')
  | .blanks => many1 Shape.isBlank
  | .lineComment =>
    {"//".toList} * optional (oneOf (fun c => c != '/' && c != '\n') * many (· != '\n'))
  | .blockComment => {"/*".toList}

end Rule

/-- A path whose parts are words. -/
structure AnnexPath.IsOfWords (path : AnnexPath) : Prop where
  qualifier : path.qualifier.toList ∈ Pattern.word
  name : path.name.toList ∈ Pattern.word
  subtag : ∀ subtag ∈ path.subtag, subtag.toList ∈ Pattern.word

namespace Rule

open Pattern

/-- The token that a word of a rule's pattern stands for. -/
def Reads : Rule → List Char → Token → Prop
  | .spelling _ token _, _, t => t = token
  | .word, w, t => t = .ident (String.ofList w)
  | .annex, w, t => ∃ path : AnnexPath, path.IsOfWords ∧ w = '%' :: path.text.toList ∧ t = .annex path
  | .integer, w, t => ∃ value, Numeral.int? w = some value ∧ t = .literal (.int value)
  | .decimal, w, t | .hexadecimal, w, t =>
    ∃ value, Numeral.float? w = some value ∧ t = .literal (.float value)
  | .string, w, t => ∃ body, w = '"' :: body ++ ['"'] ∧
    t = .literal (.string (String.ofList (Quoted.decode body)))
  | .char, w, t => ∃ c, (w = ['\'', c, '\''] ∧ t = .literal (.char c)) ∨
    w = ['\'', '\\', c, '\''] ∧ t = .literal (.char (Quoted.decodeEscape c))
  | .doc, w, t => ∃ line, w = "///".toList ++ line ∧ t = .doc (String.ofList (docText line))
  | .openString, _, _ | .blanks, _, _ | .lineComment, _, _ | .blockComment, _, _ => False

/-- A word that a rule matches and reads as a token. -/
def IsRead (w : List Char) (t : Token) : Prop := ∃ rule : Rule, w ∈ rule.pattern ∧ rule.Reads w t

theorem isRead_spelling {w : List Char} {t : Token} (listed : (w, t) ∈ Token.spellings) : IsRead w t :=
  ⟨.spelling w t listed, rfl, rfl⟩

theorem isRead_float {w : List Char} {value : Binary64}
    (h : w ∈ sign * (Pattern.decimal + Pattern.hexadecimal)) (found : Numeral.float? w = some value) :
    IsRead w (.literal (.float value)) := by
  rw [mul_add] at h
  rcases h with decimal | hexadecimal
  · exact ⟨.decimal, decimal, value, found, rfl⟩
  · exact ⟨.hexadecimal, hexadecimal, value, found, rfl⟩

end Rule

namespace Pattern

variable {p : Char → Bool} {l : Language Char} {w : List Char}

theorem mem_oneOf_mul : w ∈ oneOf p * l ↔ ∃ c v, w = c :: v ∧ p c ∧ v ∈ l := by
  rw [Language.mem_mul]
  constructor
  · rintro ⟨_, ⟨c, hc, rfl⟩, v, hv, rfl⟩
    exact ⟨c, v, rfl, hc, hv⟩
  · rintro ⟨c, v, rfl, hc, hv⟩
    exact ⟨[c], ⟨c, hc, rfl⟩, v, hv, rfl⟩

theorem mem_just_mul {c : Char} : w ∈ just c * l ↔ ∃ v, w = c :: v ∧ v ∈ l := by
  unfold just
  simp [mem_oneOf_mul]

theorem mem_just {c : Char} : w ∈ just c ↔ w = [c] := by
  constructor
  · rintro ⟨d, hd, rfl⟩
    rw [beq_iff_eq.1 hd]
  · rintro rfl
    exact ⟨c, beq_self_eq_true c, rfl⟩

theorem mem_text_mul {text : List Char} : w ∈ ({text} : Language Char) * l ↔ ∃ v, w = text ++ v ∧ v ∈ l := by
  rw [Language.mem_mul]
  constructor
  · rintro ⟨_, rfl, v, hv, rfl⟩
    exact ⟨v, rfl, hv⟩
  · rintro ⟨v, rfl, hv⟩
    exact ⟨text, rfl, v, hv, rfl⟩

theorem mem_many : w ∈ many p ↔ w.all p := by
  constructor
  · rintro ⟨parts, rfl, each⟩
    rw [List.all_eq_true]
    intro c hc
    obtain ⟨part, hpart, hc⟩ := List.mem_flatten.1 hc
    obtain ⟨d, hd, rfl⟩ := each part hpart
    rwa [List.mem_singleton.1 hc]
  · intro all
    refine ⟨w.map ([·]), by simp [← List.flatMap_def], ?_⟩
    rw [List.forall_mem_map]
    exact fun c hc => ⟨c, List.all_eq_true.1 all c hc, rfl⟩

theorem mem_many1 : w ∈ many1 p ↔ w ≠ [] ∧ w.all p := by
  unfold many1
  rw [mem_oneOf_mul]
  constructor
  · rintro ⟨c, v, rfl, hc, hv⟩
    exact ⟨List.cons_ne_nil c v, by simp [hc, mem_many.1 hv]⟩
  · rintro ⟨filled, all⟩
    obtain ⟨c, v, rfl⟩ := List.exists_cons_of_ne_nil filled
    obtain ⟨hc, hv⟩ : p c ∧ v.all p := by simpa using all
    exact ⟨c, v, rfl, hc, mem_many.2 hv⟩

/-- The alternatives of a pattern with a point. -/
theorem mem_pointed : w ∈ pointed p ↔
    ∃ u v, w = u ++ '.' :: v ∧ u.all p ∧ v.all p ∧ (u ≠ [] ∨ v ≠ []) := by
  unfold pointed
  rw [Language.mem_add, Language.mem_mul, mem_just_mul]
  constructor
  · rintro (⟨u, hu, _, behind, rfl⟩ | ⟨v, rfl, hv⟩)
    · obtain ⟨v, rfl, hv⟩ := mem_just_mul.1 behind
      obtain ⟨filled, all⟩ := mem_many1.1 hu
      exact ⟨u, v, rfl, all, mem_many.1 hv, .inl filled⟩
    · obtain ⟨filled, all⟩ := mem_many1.1 hv
      exact ⟨[], v, rfl, rfl, all, .inr filled⟩
  · rintro ⟨u, v, rfl, hu, hv, filled⟩
    by_cases front : u = []
    · subst front
      exact .inr ⟨v, rfl, mem_many1.2 ⟨filled.resolve_left fun h => h rfl, hv⟩⟩
    · exact .inl ⟨u, mem_many1.2 ⟨front, hu⟩, _, mem_just_mul.2 ⟨v, rfl, mem_many.2 hv⟩, rfl⟩

theorem mem_sign_mul : w ∈ sign * l ↔
    w ∈ l ∨ ∃ c v, w = c :: v ∧ (c = '+' ∨ c = '-') ∧ v ∈ l := by
  unfold sign
  rw [Language.mem_mul]
  constructor
  · rintro ⟨_, rfl | ⟨c, hc, rfl⟩, v, hv, rfl⟩
    · exact .inl hv
    · exact .inr ⟨c, v, rfl, by simpa using hc, hv⟩
  · rintro (h | ⟨c, v, rfl, hc, hv⟩)
    · exact ⟨[], .inl rfl, w, h, rfl⟩
    · exact ⟨[c], .inr ⟨c, by simpa using hc, rfl⟩, v, hv, rfl⟩

/-- Every word of a pattern begins with a character of a class. -/
def Heads (p : Char → Bool) (l : Language Char) : Prop := ∀ w ∈ l, ∃ c v, w = c :: v ∧ p c

namespace Heads

variable {m : Language Char} {q : Char → Bool}

theorem oneOf_mul (p : Char → Bool) (l : Language Char) : Heads p (oneOf p * l) := by
  intro w hw
  obtain ⟨c, v, rfl, hc, -⟩ := mem_oneOf_mul.1 hw
  exact ⟨c, v, rfl, hc⟩

theorem mono (h : Heads p l) (sub : ∀ c, p c → q c) : Heads q l := by
  intro w hw
  obtain ⟨c, v, rfl, hc⟩ := h w hw
  exact ⟨c, v, rfl, sub c hc⟩

theorem add (hl : Heads p l) (hm : Heads p m) : Heads p (l + m) := by
  rintro w (hw | hw)
  · exact hl w hw
  · exact hm w hw

theorem mul (hl : Heads p l) (m : Language Char) : Heads p (l * m) := by
  intro w hw
  obtain ⟨u, hu, v, -, rfl⟩ := Language.mem_mul.1 hw
  obtain ⟨c, u, rfl, hc⟩ := hl u hu
  exact ⟨c, u ++ v, rfl, hc⟩

theorem natural : Heads Char.isDigit natural := by
  have zero : ∀ c, c == '0' → c.isDigit := by
    intro c hc
    rw [beq_iff_eq.1 hc]
    rfl
  unfold Pattern.natural
  apply (oneOf_mul Char.isDigit _).add
  apply ((oneOf_mul _ _).mono zero).add
  exact ((oneOf_mul _ _).mono zero).add ((oneOf_mul _ _).mono zero)

theorem fractional (isDigit isMark : Char → Bool) :
    Heads (fun c => isDigit c || c == '.') (fractional isDigit isMark) := by
  have digits : Heads (fun c => isDigit c || c == '.') (many1 isDigit) :=
    (oneOf_mul isDigit _).mono fun c hc => by simp [hc]
  have point : Heads (fun c => isDigit c || c == '.') (just '.' * many1 isDigit) :=
    (oneOf_mul (· == '.') _).mono fun c hc => by simp [hc]
  exact (((digits.mul _).add point).mul _).add (digits.mul _)

/-- In front of a number there may be a sign. -/
theorem sign_mul (h : Heads p l) : Heads (fun c => p c || c == '+' || c == '-') (sign * l) := by
  intro w hw
  rcases mem_sign_mul.1 hw with hw | ⟨c, v, rfl, hc, -⟩
  · obtain ⟨c, v, rfl, hc⟩ := h w hw
    exact ⟨c, v, rfl, by simp [hc]⟩
  · exact ⟨c, v, rfl, by simpa [or_assoc] using .inr hc⟩

end Heads

end Pattern

end Mim
