/-! # Spans and positions

Where a token or a tree node stands in its source text: a span counts bytes, a
position counts lines and columns.
-/

namespace Mim

/-- The bytes of a source text from `start` up to, but not including, `stop`. -/
structure Span where
  start : Nat
  stop : Nat
  deriving DecidableEq, Repr

namespace Span

/-- The empty span at the start of a text. -/
def zero : Span := ⟨0, 0⟩

/-- The empty span at one offset. -/
def point (offset : Nat) : Span := ⟨offset, offset⟩

/-- The smallest span covering both. -/
def merge (a b : Span) : Span := ⟨min a.start b.start, max a.stop b.stop⟩

/-- The number of bytes covered; a reversed span covers none. -/
def length (s : Span) : Nat := s.stop - s.start

def isEmpty (s : Span) : Bool := s.length == 0

/-- The same stretch in a text that has `n` more bytes in front. -/
def shift (n : Nat) (s : Span) : Span := ⟨s.start + n, s.stop + n⟩

end Span

/-- A line and a column, both counted from one; a column is a code point. -/
structure Position where
  line : Nat
  column : Nat
  deriving DecidableEq, Repr

namespace Position

/-- The first position of a text. -/
def first : Position := ⟨1, 1⟩

/-- The position after one more character; only a newline ends a line. -/
def advance (p : Position) (c : Char) : Position :=
  if c = '\n' then ⟨p.line + 1, 1⟩ else ⟨p.line, p.column + 1⟩

end Position

/-- A place in a source text, as a byte offset and as a position. -/
structure Place where
  offset : Nat
  position : Position
  deriving DecidableEq, Repr

namespace Place

/-- The place before the first character. -/
def first : Place := ⟨0, Position.first⟩

/-- The place after one more character. -/
def advance (p : Place) (c : Char) : Place := ⟨p.offset + c.utf8Size, p.position.advance c⟩

/-- The place after a stretch of text. -/
def after (p : Place) (text : List Char) : Place := text.foldl advance p

theorem after_append (p : Place) (s t : List Char) :
    p.after (s ++ t) = (p.after s).after t := List.foldl_append

end Place

end Mim
