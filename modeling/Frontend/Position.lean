import Frontend.Text.Basic

/-!
# Positions and spans

Where something stands in a source file. Lines and columns count from 1, columns count characters, and
offsets count bytes from 0.
-/

namespace Frontend

/-- A place in a source file. -/
structure Position where
  file : String := ""
  line : Int := 0
  column : Int := 0
  offset : Int := 0
  deriving DecidableEq, Repr, Inhabited

namespace Position

/-- `file:line:column`, or `line:column` when the file has no name. -/
def text (p : Position) : String :=
  let place := Text.ofInt p.line ++ ":" ++ Text.ofInt p.column
  if p.file.isEmpty then place else p.file ++ ":" ++ place

/-- A position is valid when its line is counted from 1. -/
def isValid (p : Position) : Bool := 0 < p.line

/-- Whether `p` stands before `q`, by line and then by column. -/
def before (p q : Position) : Bool :=
  if p.line ≠ q.line then p.line < q.line else p.column < q.column

/-- The place some columns and bytes further on the same line. -/
def shift (p : Position) (columns bytes : Int) : Position :=
  { p with column := p.column + columns, offset := p.offset + bytes }

end Position

/-- A stretch of source text. -/
structure Span where
  start : Position
  finish : Position
  deriving DecidableEq, Repr, Inhabited

namespace Span

/-- The number of columns of a span within one line; a span over several lines counts as 1. -/
def length (s : Span) : Int :=
  if s.start.line = s.finish.line then s.finish.column - s.start.column else 1

/-- `file:line:column-column`, or with both lines when the span crosses lines. -/
def text (s : Span) : String :=
  let head := s.start.file ++ ":" ++ Text.ofInt s.start.line ++ ":" ++ Text.ofInt s.start.column
  if s.start.line = s.finish.line then head ++ "-" ++ Text.ofInt s.finish.column
  else head ++ "-" ++ Text.ofInt s.finish.line ++ ":" ++ Text.ofInt s.finish.column

end Span

end Frontend
