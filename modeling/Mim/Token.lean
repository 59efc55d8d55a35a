import Mim.Literal

/-! # Tokens

The words and signs of the language, their spellings, and the classes of tokens
that the grammar and the messages tell apart.
-/

namespace Mim

inductive Keyword where
  | import_ | plugin
  | axm | cfun | ccon | let_ | rec_ | and_ | lam | con | fun_ | external | rule | norm | when_
  | match_ | with_ | where_ | end_ | as_ | ins | ret | inj
  | cnType | fnType | cn | lm
  deriving DecidableEq

namespace Keyword

def text : Keyword → String
  | .import_ => "import"
  | .plugin => "plugin"
  | .axm => "axm"
  | .cfun => "cfun"
  | .ccon => "ccon"
  | .let_ => "let"
  | .rec_ => "rec"
  | .and_ => "and"
  | .lam => "lam"
  | .con => "con"
  | .fun_ => "fun"
  | .external => "extern"
  | .rule => "rule"
  | .norm => "norm"
  | .when_ => "when"
  | .match_ => "match"
  | .with_ => "with"
  | .where_ => "where"
  | .end_ => "end"
  | .as_ => "as"
  | .ins => "ins"
  | .ret => "ret"
  | .inj => "inj"
  | .cnType => "Cn"
  | .fnType => "Fn"
  | .cn => "cn"
  | .lm => "lm"

def all : List Keyword :=
  [.import_, .plugin, .axm, .cfun, .ccon, .let_, .rec_, .and_, .lam, .con, .fun_, .external,
    .rule, .norm, .when_, .match_, .with_, .where_, .end_, .as_, .ins, .ret, .inj, .cnType,
    .fnType, .cn, .lm]

/-- Second spellings made of letters. -/
def aliases : List (String × Keyword) := [("insert", .ins), ("fn", .lm)]

/-- The keywords that begin a declaration. -/
def startsDeclaration : Keyword → Bool
  | .axm | .cfun | .ccon | .let_ | .rec_ | .lam | .con | .fun_ | .rule | .norm => true
  | _ => false

end Keyword

/-- The types and type constants that have a spelling of their own. -/
inductive Primitive where
  | univ | type | nat | idx | bool | i1 | i8 | i16 | i32 | i64 | star | box | bot | top
  deriving DecidableEq

namespace Primitive

def text : Primitive → String
  | .univ => "Univ"
  | .type => "Type"
  | .nat => "Nat"
  | .idx => "Idx"
  | .bool => "Bool"
  | .i1 => "I1"
  | .i8 => "I8"
  | .i16 => "I16"
  | .i32 => "I32"
  | .i64 => "I64"
  | .star => "*"
  | .box => "□"
  | .bot => "⊥"
  | .top => "⊤"

/-- The primitives spelled with letters. -/
def words : List Primitive := [.univ, .type, .nat, .idx, .bool, .i1, .i8, .i16, .i32, .i64]

end Primitive

inductive Symbol where
  | leftParen | rightParen | leftBracket | rightBracket | leftBrace | rightBrace
  | leftUniq | rightUniq | leftArray | rightArray | leftPack | rightPack
  | assign | comma | semicolon | dot | hash | colon | atSign | dollar | pipe
  | fatArrow | arrow | union
  deriving DecidableEq

namespace Symbol

def text : Symbol → String
  | .leftParen => "("
  | .rightParen => ")"
  | .leftBracket => "["
  | .rightBracket => "]"
  | .leftBrace => "\x7b"
  | .rightBrace => "\x7d"
  | .leftUniq => "⦃"
  | .rightUniq => "⦄"
  | .leftArray => "«"
  | .rightArray => "»"
  | .leftPack => "‹"
  | .rightPack => "›"
  | .assign => "="
  | .comma => ","
  | .semicolon => ";"
  | .dot => "."
  | .hash => "#"
  | .colon => ":"
  | .atSign => "@"
  | .dollar => "$"
  | .pipe => "|"
  | .fatArrow => "=>"
  | .arrow => "->"
  | .union => "∪"

def all : List Symbol :=
  [.leftParen, .rightParen, .leftBracket, .rightBracket, .leftBrace, .rightBrace, .leftUniq,
    .rightUniq, .leftArray, .rightArray, .leftPack, .rightPack, .assign, .comma, .semicolon,
    .dot, .hash, .colon, .atSign, .dollar, .pipe, .fatArrow, .arrow, .union]

/-- Second spellings. -/
def aliases : List (String × Symbol) :=
  [("\x7b|", .leftUniq), ("|\x7d", .rightUniq),
    ("⟪", .leftArray), ("<<", .leftArray), ("⟫", .rightArray), (">>", .rightArray),
    ("⟨", .leftPack), ("<", .leftPack), ("⟩", .rightPack), (">", .rightPack),
    ("→", .arrow)]

end Symbol

/-- A dotted name of two or three parts, written after a percent sign. -/
structure AnnexPath where
  qualifier : String
  name : String
  subtag : Option String
  deriving DecidableEq

/-- The parts joined by points. -/
def AnnexPath.text (path : AnnexPath) : String :=
  match path.subtag with
  | some subtag => path.qualifier ++ "." ++ path.name ++ "." ++ subtag
  | none => path.qualifier ++ "." ++ path.name

/-- Why a stretch of text is no token. -/
inductive LexError where
  | unrecognizedToken
  | unterminatedString
  | unterminatedBlockComment
  | invalidNumber (text : String)
  deriving DecidableEq

/-- One token; a doc comment and a stretch of broken text count as tokens. -/
inductive Token where
  | keyword (word : Keyword)
  | primitive (ty : Primitive)
  | ident (name : String)
  | annex (path : AnnexPath)
  | percent
  | literal (value : Literal)
  | doc (line : String)
  | symbol (sign : Symbol)
  | error (reason : LexError)
  deriving DecidableEq

namespace Token

/-- The classes of tokens. -/
inductive Kind where
  | keyword
  | identifier
  | annexSigil
  | punctuation
  | primitive
  | intLiteral
  | floatLiteral
  | stringLiteral
  | charLiteral
  | boolLiteral
  | docComment
  | errorSentinel
  deriving DecidableEq

namespace Kind

def name : Kind → String
  | .keyword => "Keyword"
  | .identifier => "Identifier"
  | .annexSigil => "AnnexSigil"
  | .punctuation => "Punctuation"
  | .primitive => "Primitive"
  | .intLiteral => "IntLiteral"
  | .floatLiteral => "FloatLiteral"
  | .stringLiteral => "StringLiteral"
  | .charLiteral => "CharLiteral"
  | .boolLiteral => "BoolLiteral"
  | .docComment => "DocComment"
  | .errorSentinel => "ErrorSentinel"

/-- Words that are no identifiers; the primitives are reserved too. -/
def isKeyword : Kind → Bool
  | .keyword | .primitive => true
  | _ => false

def isLiteral : Kind → Bool
  | .intLiteral | .floatLiteral | .stringLiteral | .charLiteral | .boolLiteral => true
  | _ => false

end Kind

def kind : Token → Kind
  | .keyword _ => .keyword
  | .primitive _ => .primitive
  | .ident _ => .identifier
  | .annex _ | .percent => .annexSigil
  | .literal (.bool _) => .boolLiteral
  | .literal (.int _) => .intLiteral
  | .literal (.float _) => .floatLiteral
  | .literal (.string _) => .stringLiteral
  | .literal (.char _) => .charLiteral
  | .doc _ => .docComment
  | .symbol _ => .punctuation
  | .error _ => .errorSentinel

def startsDeclaration : Token → Bool
  | .keyword word => word.startsDeclaration
  | _ => false

/-- The tokens that an operand can begin with. -/
def startsOperand : Token → Bool
  | .primitive _ | .ident _ | .annex _ | .literal _ | .error _ => true
  | .symbol .leftParen | .symbol .leftBracket | .symbol .leftBrace | .symbol .leftUniq
  | .symbol .leftArray | .symbol .leftPack => true
  | .keyword .cnType | .keyword .fnType | .keyword .lm | .keyword .cn | .keyword .ins
  | .keyword .ret | .keyword .match_ => true
  | token => token.startsDeclaration

/-- The tokens that the domain of a function can begin with. -/
def startsDomain (token : Token) : Bool := token.startsOperand && !token.startsDeclaration

/-- The token that a word of letters, digits and underscores is. -/
def ofWord (word : String) : Token :=
  if word = "tt" then .literal (.bool true)
  else if word = "ff" then .literal (.bool false)
  else match Keyword.all.find? (·.text = word) <|> Keyword.aliases.lookup word with
    | some found => .keyword found
    | none => match Primitive.words.find? (·.text = word) with
      | some found => .primitive found
      | none => .ident word

/-- Every fixed spelling that is not a word, with its token. -/
def signs : List (List Char × Token) :=
  Symbol.all.map (fun s => (s.text.toList, .symbol s)) ++
    Symbol.aliases.map (fun s => (s.1.toList, .symbol s.2)) ++
    [("λ".toList, .keyword .lm), ("*".toList, .primitive .star), ("★".toList, .primitive .star),
      ("□".toList, .primitive .box), (".bot".toList, .primitive .bot),
      ("⊥".toList, .primitive .bot), (".top".toList, .primitive .top),
      ("⊤".toList, .primitive .top)]

/-- The text of a token in canonical source. -/
def text : Token → List Char
  | .keyword word => word.text.toList
  | .primitive ty => ty.text.toList
  | .ident name => name.toList
  | .annex path => '%' :: path.text.toList
  | .percent => ['%']
  | .literal value => value.text
  | .doc line => if line.isEmpty then "///".toList else "/// ".toList ++ line.toList
  | .symbol sign => sign.text.toList
  | .error _ => "<error>".toList

/-- The text of a token in messages and listings, where quoted text is shown as it is and
    the brackets of a singleton type are in ASCII. -/
def display : Token → String
  | .symbol .leftUniq => "\x7b|"
  | .symbol .rightUniq => "|\x7d"
  | .literal value => value.display
  | .doc line => "/// " ++ line
  | token => String.ofList token.text

end Token

end Mim
