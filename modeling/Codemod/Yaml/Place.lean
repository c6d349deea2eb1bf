import Codemod.Yaml.Scan

/-!
Places in a text: what was passed, as far as errors and indentation depend on it, and what
lies ahead.
-/

namespace Codemod.Yaml

/-- Where a character stands: its byte offset, its line counted from one, its byte column in
the line, whether only blanks stand in front of it there, and whether a tab does. -/
structure Position where
  offset : Nat := 0
  line : Nat := 1
  column : Nat := 0
  onlySpaces : Bool := true
  tab : Bool := false
deriving DecidableEq, Repr

/-- The position behind a character. -/
def Position.step (p : Position) (c : Char) : Position :=
  if c = '\n' then
    { offset := p.offset + 1, line := p.line + 1, column := 0, onlySpaces := true, tab := false }
  else
    { offset := p.offset + c.utf8Size
      line := p.line
      column := p.column + c.utf8Size
      onlySpaces := p.onlySpaces && isSpace c
      tab := p.tab || c = '\t' }

/-- The position behind some characters. -/
def Position.pass (p : Position) (cs : List Char) : Position :=
  cs.foldl Position.step p

/-- A position and the characters ahead of it. -/
structure Place where
  position : Position
  ahead : List Char
deriving DecidableEq, Repr

namespace Place

/-- The place at the start of a text. -/
def start (cs : List Char) : Place :=
  ⟨{}, cs⟩

/-- The place behind the characters taken, with those left ahead. -/
def move (p : Place) (taken left : List Char) : Place :=
  ⟨p.position.pass taken, left⟩

/-- Nothing lies ahead. -/
def atEnd (p : Place) : Bool :=
  p.ahead.isEmpty

/-- The byte column of the place. -/
def column (p : Place) : Nat :=
  p.position.column

/-- The error of an unsupported construct at the place. -/
def unsupported (p : Place) (construct : Construct) : ParseError :=
  .unsupported construct p.position.line p.position.offset

/-- The error of something else at the place. -/
def expected (p : Place) (wanted : Wanted) : ParseError :=
  .expected wanted p.position.line p.position.offset

/-- The error of a wrong indentation at the place. -/
def indentation (p : Place) : ParseError :=
  .indentation p.position.line p.position.offset

/-- The trivia ahead and the place behind it, which must not be indented with a tab. -/
def skip (p : Place) : Except ParseError (List Char × Place) :=
  let (taken, left) := trivia false p.ahead
  let next := p.move taken left
  if !next.atEnd && next.position.onlySpaces && next.position.tab then
    .error (next.unsupported .tabIndentation)
  else .ok (taken, next)

end Place

end Codemod.Yaml
