import Codemod.Tree.Basic
import Codemod.Yaml.Place

/-!
Documents of nested block mappings. Trivia belongs to what follows it: an entry holds the
blank lines, comments and indentation in front of its key, and the token at the end holds what
trails the last entry. A mapping has no trivia of its own, so that none is left behind when its
first entry goes.
-/

namespace Codemod.Yaml

open Codemod.Tree

/-- A scalar with this text. -/
def scalarNode (lead raw : List Char) : Node :=
  { kind := .yaml .scalar
    lead := String.ofList lead
    children := [.token ⟨.text, "", String.ofList raw⟩] }

/-- A mapping of these entries. -/
def mappingNode (entries : List Element) : Node :=
  { kind := .yaml .mapping, lead := "", children := entries }

/-- An entry of a key, the trivia in front of its colon, and a value. -/
def entryNode (lead key gap : List Char) (value : Node) : Node :=
  { kind := .yaml .entry
    lead := String.ofList lead
    children :=
      [ .token ⟨.text, "", String.ofList key⟩, .token ⟨.punct, String.ofList gap, ":"⟩,
        .node value ] }

/-- The characters begin a quoted text. -/
def startsQuote : List Char → Bool
  | c :: _ => c = '"' || c = '\''
  | [] => false

/-- A text in quotes at the place. -/
def quotedText (p : Place) : Except ParseError (List Char × Place) :=
  match p.ahead with
  | [] => .error (p.expected .closingQuote)
  | quote :: rest =>
      match quotedRun quote rest with
      | some (taken, left) => .ok (quote :: taken, p.move (quote :: taken) left)
      | none => .error (p.expected .closingQuote)

/-- The key of an entry at the place. -/
def key (p : Place) : Except ParseError (List Char × Place) :=
  if startsQuote p.ahead then quotedText p
  else
    let run := keyRun false p.ahead
    let left := p.ahead.drop run.length
    let raw := trimSpaces run
    if left.head? != some ':' then .error ((p.move run left).expected .colon)
    else if raw.isEmpty then .error (p.expected .key)
    else .ok (raw, p.move raw (p.ahead.drop raw.length))

/-- Nothing but a comment behind a blank stands between the place and the end of its line. -/
def lineEnds (p : Place) : Except ParseError Unit :=
  let (blanks, left) := spaces p.ahead
  match left with
  | [] => .ok ()
  | c :: _ =>
      if isBreak c || !blanks.isEmpty && c = '#' then .ok ()
      else .error ((p.move blanks left).expected .endOfLine)

/-- The text of a scalar at the place. -/
def scalarText (p : Place) : Except ParseError (List Char × Place) := do
  match unsupported? true p.ahead with
  | some construct => .error (p.unsupported construct)
  | none =>
      if startsQuote p.ahead then
        let (raw, next) ← quotedText p
        lineEnds next
        .ok (raw, next)
      else
        let (raw, left) := plainScalar p.ahead
        .ok (raw, p.move raw left)

/-- The line ends here, perhaps with a comment. -/
def valueIsBelow : List Char → Bool
  | [] => true
  | c :: _ => isBreak c || c = '#'

/-- The value of an entry, from behind its colon: a scalar in the line, else the mapping that
follows on a line with more indentation, read by `entries`, else nothing. -/
def value (entries : Nat → Place → Except ParseError (List Element × Place)) (indent : Nat)
    (p : Place) : Except ParseError (Node × Place) := do
  let (blanks, left) := spaces p.ahead
  if valueIsBelow left then
    let (gap, next) ← p.skip
    if !next.atEnd && gap.contains '\n' && indent < next.column then
      let (children, p) ← entries next.column p
      .ok (mappingNode children, p)
    else .ok (scalarNode [] [], p)
  else
    let (raw, p) ← scalarText (p.move blanks left)
    .ok (scalarNode blanks raw, p)

/-- An entry at the place, with the trivia in front of it. -/
def entry (entries : Nat → Place → Except ParseError (List Element × Place)) (indent : Nat)
    (lead : List Char) (p : Place) : Except ParseError (Node × Place) := do
  match unsupported? false p.ahead with
  | some construct => .error (p.unsupported construct)
  | none =>
      let (key, p) ← key p
      let (gap, left) := spaces p.ahead
      let p := p.move gap left
      match p.ahead with
      | ':' :: left => do
          let (node, p) ← value entries indent (p.move [':'] left)
          .ok (entryNode lead key gap node, p)
      | _ => .error (p.expected .colon)

/-- The entries in a column from the place on, at most `limit` of them together with those
below them. -/
def entriesWithin : Nat → Nat → Place → Except ParseError (List Element × Place)
  | 0, _, p => .ok ([], p)
  | limit + 1, indent, p => do
      let (lead, next) ← p.skip
      if next.atEnd || next.column < indent then .ok ([], p)
      else if indent < next.column then .error next.indentation
      else
        let (first, p) ← entry (entriesWithin limit) indent lead next
        let (others, p) ← entriesWithin limit indent p
        .ok (.node first :: others, p)

/-- The marker that may begin a document, on a line of its own. -/
def marker (p : Place) : Except ParseError (List Element × Place) := do
  let (lead, next) ← p.skip
  if next.column == 0 && startsMarker "---" next.ahead then
    let p := next.move ['-', '-', '-'] (next.ahead.drop 3)
    let (gap, after) ← p.skip
    if !after.atEnd && !gap.contains '\n' then
      .error (after.unsupported .contentAfterMarker)
    else .ok ([.token ⟨.punct, String.ofList lead, "---"⟩], p)
  else .ok ([], p)

/-- The mapping of a document, which has one unless nothing but trivia is left. -/
def rootMapping (p : Place) : Except ParseError (List Element × Place) := do
  let (_, next) ← p.skip
  if next.atEnd then .ok ([], p)
  else
    let (entries, p) ← entriesWithin p.ahead.length next.column p
    .ok ([.node (mappingNode entries)], p)

/-- The end of a document, behind the trivia at the place. -/
def documentEnd (p : Place) : Except ParseError Element := do
  let (lead, next) ← p.skip
  if next.atEnd then .ok (.token ⟨.eof, String.ofList lead, ""⟩)
  else .error next.indentation

/-- The tree of a document. An entry takes at least one character, so none is missed. -/
def parseDocument (source : String) : Except ParseError Node := do
  let (marker, p) ← marker (Place.start source.toList)
  let (mapping, p) ← rootMapping p
  let last ← documentEnd p
  .ok { kind := .yaml .document, lead := "", children := marker ++ mapping ++ [last] }

end Codemod.Yaml
