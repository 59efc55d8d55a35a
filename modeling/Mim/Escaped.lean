import Mim.Printable
import Mim.Quoted

/-! # Escaped text

Text between quotes on one line, where everything that would not be seen is
written with a backslash.
-/

namespace Mim.Escaped

/-- One character between quotes of the given kind. -/
def char (quote c : Char) : List Char :=
  if c = quote || c = '\\' then ['\\', c]
  else match c with
    | '\x00' => ['\\', '0']
    | '\t' => ['\\', 't']
    | '\n' => ['\\', 'n']
    | '\r' => ['\\', 'r']
    | c => if Printable.isPrintable c then [c] else Quoted.codePoint c

/-- A character in single quotes. -/
def quotedChar (c : Char) : String := String.ofList ('\'' :: char '\'' c ++ ['\''])

/-- A text in double quotes. -/
def quoted (s : String) : String := String.ofList ('"' :: s.toList.flatMap (char '"') ++ ['"'])

end Mim.Escaped
