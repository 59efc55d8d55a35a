import Mim.Lexeme.Shape
import Mim.Numeral
import Mim.Quoted
import Mim.Span
import Mim.Token

/-! # Lexemes

A source text as a sequence of tokens with their places. From each place the
longest lexeme is taken; blanks and plain comments are passed over, and text
that starts no lexeme becomes an error token of one character.
-/

namespace Mim

/-- The text of a doc comment, from its line: without slashes and blanks at the start,
    and without carriage returns at the end. -/
def docText (line : List Char) : List Char :=
  ((withoutSlashes line).dropWhile fun c => c == ' ' || c == '\t').reverse.dropWhile
    (· == '\r') |>.reverse
where
  withoutSlashes : List Char → List Char
    | '/' :: '/' :: '/' :: cs => withoutSlashes cs
    | cs => cs

/-- What is taken at the start of a text. -/
structure Taken where
  /-- The number of characters after the first. -/
  more : Nat
  /-- The token that they are, none if they are passed over. -/
  token? : Option Token
  /-- Whether a point was left over, because a name follows it. -/
  beforeMember : Bool

namespace Taken

def blank (more : Nat) : Taken := ⟨more, none, false⟩

def token (more : Nat) (token : Token) : Taken := ⟨more, some token, false⟩

/-- One character that starts no lexeme. -/
def unrecognized : Taken := token 0 (.error .unrecognizedToken)

end Taken

namespace Scan

/-- After a percent sign: a dotted path, else a bare percent sign. A single name makes the
    whole an error. -/
def percent (cs : List Char) : Taken :=
  let first := Shape.word cs
  if first == 0 then .token 0 .percent
  else match cs.drop first with
    | '.' :: rest =>
      let second := Shape.word rest
      if second == 0 then .token first (.error .unrecognizedToken)
      else
        let part := fun (n : Nat) (cs : List Char) => String.ofList (cs.take n)
        let path : AnnexPath := ⟨part first cs, part second rest, none⟩
        match rest.drop second with
        | '.' :: rest =>
          let third := Shape.word rest
          if third == 0 then .token (first + 1 + second) (.annex path)
          else .token (first + 1 + second + 1 + third)
            (.annex { path with subtag := some (part third rest) })
        | _ => .token (first + 1 + second) (.annex path)
    | _ => .token first (.error .unrecognizedToken)

/-- After a double quote. -/
def string (cs : List Char) : Taken :=
  let body := Shape.stringBody cs
  if (cs.drop body).head? == some '"' then
    .token (body + 1) (.literal (.string (String.ofList (Quoted.decode (cs.take body)))))
  else .token body (.error .unterminatedString)

/-- After a single quote. -/
def char : List Char → Taken
  | '\\' :: c :: '\'' :: _ =>
    if c == '\n' then .unrecognized else .token 3 (.literal (.char (Quoted.decodeEscape c)))
  | c :: '\'' :: _ =>
    if c == '\'' || c == '\\' then .unrecognized else .token 2 (.literal (.char c))
  | _ => .unrecognized

/-- After a slash: the rest of a comment. -/
def slash : List Char → Taken
  | '/' :: '/' :: cs =>
    let line := cs.takeWhile (· != '\n')
    .token (2 + line.length) (.doc (String.ofList (docText line)))
  | '/' :: cs => .blank (1 + Shape.run (· != '\n') cs)
  | '*' :: cs =>
    match Shape.throughCommentEnd cs with
    | some more => .blank (1 + more)
    | none => .token (1 + cs.length) (.error .unterminatedBlockComment)
  | _ => .unrecognized

def intToken (lexeme : List Char) : Token :=
  match Numeral.int? lexeme with
  | some value => .literal (.int value)
  | none => .error (.invalidNumber (String.ofList lexeme))

/-- A numeral of the given length. One that ends in a point before a name is an integer
    without the point, if it is a number at all with it. -/
def number (text : List Char) (length : Nat) (isReal : Bool) : Taken :=
  let lexeme := text.take length
  if !isReal then .token (length - 1) (intToken lexeme)
  else match Numeral.float? lexeme with
    | none => .token (length - 1) (.error (.invalidNumber (String.ofList lexeme)))
    | some value =>
      if lexeme.getLast? == some '.' && Shape.word (text.drop length) != 0 then
        ⟨length - 2, some (intToken lexeme.dropLast), true⟩
      else .token (length - 1) (.literal (.float value))

/-- The longest sign that a text starts with. -/
def sign (text : List Char) : Taken :=
  let longest := Token.signs.foldl
    (fun best s => if best.1.length < s.1.length && s.1.isPrefixOf text then s else best)
    ([], .error .unrecognizedToken)
  .token (longest.1.length - 1) longest.2

/-- The longest lexeme of a text of at least one character. -/
def first (c : Char) (cs : List Char) : Taken :=
  if Shape.isBlank c then .blank (Shape.run Shape.isBlank cs)
  else if Shape.isWordStart c then
    let more := Shape.run Shape.isWordChar cs
    .token more (Token.ofWord (String.ofList (c :: cs.take more)))
  else if c == '%' then percent cs
  else if c == '"' then string cs
  else if c == '\'' then char cs
  else if c == '/' then slash cs
  else
    let (length, isReal) := Shape.numeral (c :: cs)
    if length != 0 then number (c :: cs) length isReal else sign (c :: cs)

end Scan

/-- A token and where it stands. -/
structure Lexeme where
  token : Token
  position : Position
  span : Span
  /-- Whether it is a numeral whose point was left to the name after it. -/
  beforeMember : Bool
  deriving DecidableEq

/-- The lexemes of a text that starts at a given place. -/
def lexemesFrom (place : Place) : List Char → List Lexeme
  | [] => []
  | c :: cs =>
    let taken := Scan.first c cs
    let next := place.after (c :: cs.take taken.more)
    let rest := lexemesFrom next (cs.drop taken.more)
    match taken.token? with
    | none => rest
    | some token =>
      ⟨token, place.position, ⟨place.offset, next.offset⟩, taken.beforeMember⟩ :: rest
termination_by cs => cs.length

/-- The lexemes of a source text. -/
def lexemes (text : String) : List Lexeme := lexemesFrom Place.first text.toList

end Mim
