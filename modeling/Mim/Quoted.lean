/-! # Quoted literals

What stands between the quotes of a string or character literal, read and
written. In a string only `\"` stands for another text; every other backslash
keeps its place, together with the character after it.
-/

namespace Mim.Quoted

/-- The value of a string literal, from the text between its quotes. -/
def decode : List Char → List Char
  | '\\' :: '"' :: cs => '"' :: decode cs
  | '\\' :: c :: cs => '\\' :: c :: decode cs
  | c :: cs => c :: decode cs
  | [] => []

/-- The text between the quotes, from the value of a string literal. -/
def encode : List Char → List Char
  | [] => []
  | '"' :: cs => '\\' :: '"' :: encode cs
  | c :: cs => c :: encode cs

/-- The character that a backslash and a character stand for. -/
def decodeEscape : Char → Char
  | 'n' => '\n'
  | 't' => '\t'
  | 'r' => '\r'
  | '0' => '\x00'
  | c => c

/-- The text between the quotes of a character literal. -/
def encodeChar : Char → List Char
  | '\n' => ['\\', 'n']
  | '\t' => ['\\', 't']
  | '\r' => ['\\', 'r']
  | '\x00' => ['\\', '0']
  | '\\' => ['\\', '\\']
  | '\'' => ['\\', '\'']
  | c => [c]

/-- A code point between braces, in hexadecimal. -/
def codePoint (c : Char) : List Char :=
  "\\u\x7b".toList ++ Nat.toDigits 16 c.toNat ++ ['\x7d']

/-- A character as a message shows it: in printable ASCII, whatever it is. -/
def asciiChar : Char → List Char
  | '\n' => ['\\', 'n']
  | '\t' => ['\\', 't']
  | '\r' => ['\\', 'r']
  | '\\' => ['\\', '\\']
  | '\'' => ['\\', '\'']
  | '"' => ['\\', '"']
  | c => if ' ' ≤ c && c ≤ '~' then [c] else codePoint c

end Mim.Quoted
