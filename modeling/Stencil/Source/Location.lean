import Stencil.Text.Offset

/-!
# Locations in a source text

A location is a byte offset with its line and column, both counted from zero.  A line starts after
each line feed, and the column counts bytes from the start of the line; offsets behind the end of
the text belong to its last line.
-/

namespace Stencil.Source

open Stencil.Text

/-- A point in a source text. -/
structure Location where
  offset : Nat
  line : Nat
  column : Nat
  deriving DecidableEq, Repr

/-- The location as people count: from one. -/
def Location.text (l : Location) : String := toString (l.line + 1) ++ ":" ++ toString (l.column + 1)

/-- A range of a source text. -/
structure Span where
  start : Location
  stop : Location
  deriving DecidableEq, Repr

/-- The text that a span covers; empty if the span fits no text there. -/
def Span.text (s : Span) (source : String) : String :=
  String.ofList ((slice? s.start.offset s.stop.offset source.toList).getD [])

/-- Offsets just after the line feeds of a text that starts at the given offset. -/
def startsFrom (offset : Nat) : List Char → List Nat
  | [] => []
  | c :: rest =>
      let next := offset + c.utf8Size
      if c == '\n' then next :: startsFrom next rest else startsFrom next rest

/-- Where the lines after the first start. -/
structure Lines where
  starts : List Nat
  deriving DecidableEq, Repr

/-- The lines of a text. -/
def Lines.of (source : String) : Lines := ⟨startsFrom 0 source.toList⟩

/-- The location of an offset, given the line before the listed starts and where it starts. -/
def locateFrom (offset line start : Nat) : List Nat → Location
  | [] => ⟨offset, line, offset - start⟩
  | next :: rest =>
      if next ≤ offset then locateFrom offset (line + 1) next rest
      else ⟨offset, line, offset - start⟩

/-- The location of an offset. -/
def Lines.location (l : Lines) (offset : Nat) : Location := locateFrom offset 0 0 l.starts

/-- The span between two offsets. -/
def Lines.span (l : Lines) (start stop : Nat) : Span := ⟨l.location start, l.location stop⟩

end Stencil.Source
