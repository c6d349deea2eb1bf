import Codemod.Text.Slice
import Codemod.Yaml.Document

/-!
Documents read by byte offsets. The reader looks at single bytes, steps over them one at a time or,
behind an escape, two, and cuts the text at the offsets that it comes to. It knows a place by its
offset alone and works out the line and the column where it needs them. A loop over pieces that are
longer than a byte has a limit of steps and gives nothing when it needs more.
-/

namespace Codemod.Yaml.Indexed

open Codemod.Text Codemod.Tree

section
variable (text : List Char)

/-! ### Bytes and errors -/

/-- An indicator character in front of the offset acts as one. -/
def endsIndicator (offset : Nat) : Bool :=
  (byte? text offset).all fun c => isSpace c || isBreak c

/-- A quoted text begins at the offset. -/
def startsQuote (offset : Nat) : Bool :=
  (byte? text offset).any fun c => c = '"' || c = '\''

/-- The text ends at the offset. -/
def atEnd (offset : Nat) : Bool :=
  size text ≤ offset

/-- The line of an offset, counted from one. -/
def lineOf (offset : Nat) : Option Nat := do
  let front ← upTo? text (min offset (size text))
  return front.count '\n' + 1

/-- Fails because of a construct that is not supported. -/
def unsupported {α : Type} (construct : Construct) (offset : Nat) : Checked ParseError α := do
  throw (.unsupported construct (← lineOf text offset) offset)

/-- Fails because something else was asked for. -/
def expected {α : Type} (wanted : Wanted) (offset : Nat) : Checked ParseError α := do
  throw (.expected wanted (← lineOf text offset) offset)

/-- Fails because of a wrong indentation. -/
def indentation {α : Type} (offset : Nat) : Checked ParseError α := do
  throw (.indentation (← lineOf text offset) offset)

/-! ### Pieces of a line -/

/-- The sign of a marker line stands at the offset. -/
def startsMarker (marker : String) (offset : Nat) : Option Bool := do
  let rest ← from? text offset
  return marker.toList.isPrefixOf rest && endsIndicator text (offset + size marker.toList)

/-- The construct of the sign that the characters start with, if it is not supported. -/
def unsupportedSign (inValue : Bool) (rest : List Char) : Option Construct :=
  match byte? rest 0 with
  | none => none
  | some '-' => if endsIndicator rest 1 then some .sequence else none
  | some '?' => if !inValue && endsIndicator rest 1 then some .complexKey else none
  | some '[' | some '\x7b' => some .flowCollection
  | some '|' | some '>' => some .blockScalar
  | some '&' => some .anchor
  | some '*' => some .aliasUse
  | some '!' => some .tag
  | some '%' => some .directive
  | some '@' | some '\x60' => some .reservedIndicator
  | some _ => none

/-- The construct at the offset, if it is not supported. -/
def unsupported? (inValue : Bool) (offset : Nat) : Option (Option Construct) := do
  let rest ← from? text offset
  if inValue then return unsupportedSign true rest
  else if ← startsMarker text "---" offset then return some .multipleDocuments
  else if ← startsMarker text "..." offset then return some .documentEnd
  else return unsupportedSign false rest

/-- The end of the blanks inside a line. -/
def skipSpaces (start : Nat) : Option Nat :=
  seek (size text) (fun offset => some !(byte? text offset).any isSpace) start

/-- The end of the line. -/
def lineEnd (start : Nat) : Option Nat :=
  seek (size text) (fun offset => some ((byte? text offset).all (· = '\n'))) start

/-- The end of blanks, line breaks and comments, at most `limit` of them together. -/
def triviaEndWithin : Nat → Nat → Option Nat
  | 0, _ => none
  | limit + 1, offset =>
      match byte? text offset with
      | none => some offset
      | some c =>
          if isSpace c || isBreak c then triviaEndWithin limit (offset + 1)
          else if c = '#' then lineEnd text offset >>= triviaEndWithin limit
          else some offset

/-- The end of the trivia at the offset and its column. -/
def skip (start : Nat) : Checked ParseError (Nat × Nat) := do
  let stop ← triviaEndWithin text (text.length + 1) start
  let lineStart := ((findLast? '\n' (← upTo? text stop)).map (· + 1)).getD 0
  let leading ← slice? text lineStart stop
  if !atEnd text stop && leading.contains '\t' &&
      (trimSpaces (leading.dropWhile isSpace)).isEmpty then
    unsupported text .tabIndentation stop
  else return (stop, stop - lineStart)

/-- A comment begins at the offset, behind a blank that stands in the same run. -/
def startsComment (start offset : Nat) : Option Bool :=
  if start < offset then do return isSpace (← byte? text (offset - 1)) else return false

/-- A scalar without quotes goes up to here. -/
def stopsPlain (start offset : Nat) : Option Bool :=
  match byte? text offset with
  | none => return true
  | some '#' => startsComment text start offset
  | some c => return isBreak c

/-- A key without quotes goes up to here. -/
def stopsKey (start offset : Nat) : Option Bool :=
  match byte? text offset with
  | some ':' => return endsIndicator text (offset + 1)
  | _ => stopsPlain text start offset

/-- The end of a scalar without quotes. -/
def plainEnd (start : Nat) : Option Nat := do
  let stop ← seek (size text) (stopsPlain text start) start
  let run ← slice? text start stop
  return start + size (trimSpaces run)

/-- The offset behind the closing quote, if there is one in the line. Behind a backslash the scan
steps over one byte. -/
def quotedFrom (quote : Char) (offset : Nat) : Option Nat :=
  match hbyte : byte? text offset with
  | none => none
  | some c =>
      if isBreak c then none
      else if c = '\\' && quote = '"' then quotedFrom quote (offset + 2)
      else if c = '\'' && quote = '\'' && byte? text (offset + 1) = some '\'' then
        quotedFrom quote (offset + 2)
      else if c = quote then some (offset + 1)
      else quotedFrom quote (offset + 1)
termination_by size text - offset
decreasing_by all_goals
  have hinside := lt_size_of_byte? hbyte
  omega

/-- The end of the quoted text that begins at the offset. -/
def quotedEnd (start : Nat) : Checked ParseError Nat := do
  let quote ← byte? text start
  match quotedFrom text quote (start + 1) with
  | some stop => return stop
  | none => expected text .closingQuote start

/-! ### Entries -/

/-- The key at the offset and its end. -/
def key (start : Nat) : Checked ParseError (List Char × Nat) := do
  if startsQuote text start then
    let stop ← quotedEnd text start
    return (← slice? text start stop, stop)
  else
    let stop ← seek (size text) (stopsKey text start) start
    if byte? text stop != some ':' then expected text .colon stop
    else
      let raw := trimSpaces (← slice? text start stop)
      if raw.isEmpty then expected text .key start
      else return (raw, start + size raw)

/-- Nothing but a comment behind a blank stands between the offset and the end of its line. -/
def lineEnds (start : Nat) : Checked ParseError Unit := do
  let stop ← skipSpaces text start
  if (byte? text stop).all isBreak || start < stop && byte? text stop = some '#' then return ()
  else expected text .endOfLine stop

/-- The text of the scalar at the offset and its end. -/
def scalarText (start : Nat) : Checked ParseError (List Char × Nat) := do
  match ← unsupported? text true start with
  | some construct => unsupported text construct start
  | none =>
      if startsQuote text start then
        let stop ← quotedEnd text start
        lineEnds text stop
        return (← slice? text start stop, stop)
      else
        let stop ← plainEnd text start
        return (← slice? text start stop, stop)

/-- The value of an entry, from behind its colon, read by `entries` if it is a mapping. -/
def value (entries : Nat → Nat → Checked ParseError (List Element × Nat)) (column start : Nat) :
    Checked ParseError (Node × Nat) := do
  let here ← skipSpaces text start
  if (byte? text here).all fun c => isBreak c || c = '#' then
    let (stop, below) ← skip text start
    let gap ← slice? text start stop
    if !atEnd text stop && gap.contains '\n' && column < below then
      let (children, last) ← entries below start
      return (mappingNode children, last)
    else return (scalarNode [] [], start)
  else
    let blanks ← slice? text start here
    let (raw, stop) ← scalarText text here
    return (scalarNode blanks raw, stop)

/-- The entry at the offset, with the trivia in front of it. -/
def entry (entries : Nat → Nat → Checked ParseError (List Element × Nat)) (column : Nat)
    (lead : List Char) (start : Nat) : Checked ParseError (Node × Nat) := do
  match ← unsupported? text false start with
  | some construct => unsupported text construct start
  | none =>
      let (raw, stop) ← key text start
      let colon ← skipSpaces text stop
      if byte? text colon != some ':' then expected text .colon colon
      else
        let gap ← slice? text stop colon
        let (node, last) ← value text entries column (colon + 1)
        return (entryNode lead raw gap node, last)

/-- The entries in a column from the offset on, at most `limit` of them together with those below
them. -/
def entriesWithin : Nat → Nat → Nat → Checked ParseError (List Element × Nat)
  | 0, _, _ => none
  | limit + 1, column, start => do
      let (stop, here) ← skip text start
      if atEnd text stop || here < column then return ([], start)
      else if column < here then indentation text stop
      else
        let lead ← slice? text start stop
        let (first, next) ← entry text (entriesWithin limit) column lead stop
        let (others, last) ← entriesWithin limit column next
        return (.node first :: others, last)

/-! ### Documents -/

/-- The marker that may begin a document, and the offset behind it. -/
def marker : Checked ParseError (List Element × Nat) := do
  let (stop, column) ← skip text 0
  if column != 0 then return ([], 0)
  else if !(← startsMarker text "---" stop) then return ([], 0)
  else
    let lead ← slice? text 0 stop
    let start := stop + 3
    let (after, _) ← skip text start
    let mark : List Element := [.token ⟨.punct, String.ofList lead, "---"⟩]
    if atEnd text after then return (mark, start)
    else if (← slice? text start after).contains '\n' then return (mark, start)
    else unsupported text .contentAfterMarker after

/-- The mapping of a document, if it has any. -/
def rootMapping (start : Nat) : Checked ParseError (List Element × Nat) := do
  let (stop, column) ← skip text start
  if atEnd text stop then return ([], start)
  else
    let (children, last) ← entriesWithin text (text.length + 1) column start
    return ([.node (mappingNode children)], last)

/-- The end of a document. -/
def documentEnd (start : Nat) : Checked ParseError Element := do
  let (stop, _) ← skip text start
  if !atEnd text stop then indentation text stop
  else return .token ⟨.eof, String.ofList (← slice? text start stop), ""⟩

end

/-- The tree of a document. -/
def parseDocument (source : String) : Checked ParseError Node := do
  let text := source.toList
  let (mark, start) ← marker text
  let (mapping, stop) ← rootMapping text start
  let last ← documentEnd text stop
  return { kind := .yaml .document, lead := "", children := mark ++ mapping ++ [last] }

end Codemod.Yaml.Indexed
