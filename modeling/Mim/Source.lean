import Mim.Diagnostic
import Mim.Grammar.File
import Mim.Layout

/-! # Source texts

A source text as a whole, read from characters to a tree, with everything that
there is to report about it.
-/

namespace Mim

/-- A source text that has been read. There is a tree for every text. -/
structure Source where
  name : String
  file : File
  /-- Ordered by where they start; of those that start together, lexical ones come first. -/
  diagnostics : List Diagnostic

namespace Source

/-- What the tokens of a text have to report. -/
def lexical (text : String) : List Diagnostic := (lexemes text).flatMap Lexeme.diagnostics

/-- A text whose tokens are about to be read. -/
def reading (text : String) : Reading := Reading.start (Item.ofLexemes (lexemes text))

/-- Reads a text under a name. -/
def read (name text : String) : Source :=
  let (file, s) := (reading text).file
  ⟨name, file, Diagnostic.sort (lexical text ++ Diagnostic.sort s.diagnostics)⟩

/-- Reads a text that has no name of its own. -/
def ofText (text : String) : Source := read "<input>" text

def hasErrors (s : Source) : Bool := Diagnostic.hasErrors s.diagnostics

def errors (s : Source) : List Diagnostic := s.diagnostics.filter Diagnostic.isError

/-- The tie-break rules applied. -/
def notes (s : Source) : List Diagnostic := s.diagnostics.filter fun d => !d.isError

/-- The text in canonical layout. -/
def formatted (s : Source) : String := s.file.text

end Source

end Mim
