import Codemod.Recipes.Folding
import Codemod.Text.Blank
import Codemod.Text.Integer

/-!
The recipe that deletes a property by its dotted key, however the key is spread over nested
mappings. Mappings that lose their last entry go with the entries that hold them. Comments that
belong to a kept line stay with it.
-/

namespace Codemod.Recipes.Deletion

open Codemod.Tree

/-- What a deleted entry leaves to the element behind it. The first line of trivia ends the
line in front of it, so the element behind a deleted entry always loses that line. -/
inductive Carry where
  /-- The deleted entry came first: its leading lines replace the next one's first line. -/
  | leading (lines : List Char)
  /-- The comment that ends the line in front of the deleted entry. -/
  | tail (comment : List Char)

/-- The characters from the first line feed on. -/
def fromBreak (cs : List Char) : List Char :=
  cs.dropWhile (· != '\n')

/-- The characters without the lines at the start that hold only blanks, from inside a line
that began as `line` and has been blank so far. -/
def skipBlankLines (line : List Char) : List Char → List Char
  | [] => line
  | c :: rest =>
      if c = '\n' then skipBlankLines rest rest
      else if Text.isBlank c then skipBlankLines line rest
      else line

/-- The characters without the lines at the start that hold only blanks. -/
def withoutBlankLines (cs : List Char) : List Char :=
  skipBlankLines cs cs

/-- The leading lines of trivia, without the indentation behind them. -/
def leadingLines (lead : String) : List Char :=
  match Text.splitLast '\n' lead.toList with
  | some (front, _) => front ++ ['\n']
  | none => []

/-- The comment in the first line of trivia, with the blanks in front of it. -/
def lineTail (lead : String) : List Char :=
  let line := lead.toList.takeWhile (· != '\n')
  if line.contains '#' then line else []

/-- Trivia with what was left to it. -/
def Carry.onto (carry : Carry) (lead : String) : String :=
  let rest := fromBreak lead.toList
  match carry with
  | .leading lines => String.ofList (lines ++ withoutBlankLines (rest.drop 1))
  | .tail comment => String.ofList (comment ++ rest)

/-- A decimal number with an optional sign, in the range of 64 bits. -/
def integer? (cs : List Char) : Option Int :=
  let digits? (cs : List Char) : Option Int :=
    if cs.isEmpty || !cs.all Char.isDigit then none
    else some (cs.foldl (fun n c => 10 * n + (c.toNat - '0'.toNat : Nat)) (0 : Int))
  let value :=
    match cs with
    | '-' :: rest => (digits? rest).map fun n => -n
    | '+' :: rest => digits? rest
    | _ => digits? cs
  value.filter Text.fits64

/-- A scalar has the expected value. Truth values are compared without regard to case, and a
number in quotes is none. -/
def valueMatches (expected : Recipe.OptionValue) (raw : String) : Bool :=
  match expected with
  | .flag value => (Yaml.unquote raw).map Char.toLower == if value then "true" else "false"
  | .number value => !Yaml.isQuoted raw && integer? (Yaml.unquote raw).toList == some value
  | .text value => Yaml.unquote raw == value

/-- The property to delete, and the value that it must have. -/
structure Target where
  path : Yaml.KeyPath
  expected? : Option Recipe.OptionValue

/-- What deletion left at the end of mappings, by the path of child indices that leads to
each; what follows the mapping takes it over. -/
abbrev Orphans := List (List Nat × Carry)

/-- What was left at the end of the mapping at a path. -/
def Orphans.at? (orphans : Orphans) (path : List Nat) : Option Carry :=
  (orphans.find? fun o => o.1 == path).map Prod.snd

namespace Target

/-- The value of an entry is one that the target asks for. -/
def acceptsValue (target : Target) (value : Node) : Bool :=
  match target.expected? with
  | none => true
  | some expected => (Yaml.scalarText? value).any (valueMatches expected)

/-- The entry goes: it is addressed, or its mapping has lost all its entries. -/
def deletes (target : Target) (enclosing : List String) (entry : Node) : Bool :=
  let full := enclosing ++ Yaml.entrySegments entry
  match Yaml.entryValue? entry with
  | none => false
  | some value =>
      if value.kind = .yaml .mapping ∧ value.childNodes = [] then target.path.continues full
      else target.path.spells full && target.acceptsValue value

end Target

/-- The index of the value among an entry's children. -/
def valueIndex? (entry : Node) : Option Nat :=
  lastIndex? (fun e => e.node?.isSome) entry.children

/-- How far the children of a mapping have been gone through. -/
structure Progress where
  kept : List Element := []
  carry? : Option Carry := none
  changed : Bool := false

/-- What a deleted entry leaves behind. -/
def Progress.delete (p : Progress) (entry : Node) : Progress :=
  let carry : Carry :=
    if p.kept.isEmpty then .leading (leadingLines entry.lead) else .tail (lineTail entry.lead)
  { p with changed := true, carry? := some (p.carry?.getD carry) }

/-- An entry that stays takes over what was left, and leaves what its own mapping left. -/
def Progress.keep (p : Progress) (entry : Node) (orphan : Option Carry) : Progress :=
  let entry : Node :=
    match p.carry? with
    | some carry => { entry with lead := carry.onto entry.lead }
    | none => entry
  { kept := p.kept ++ [.node entry], carry? := orphan, changed := p.changed || orphan.isSome }

/-- Goes through the children of the mapping at `path`, whose first is the one at `index`. -/
def sweep (target : Target) (enclosing : List String) (orphans : Orphans) (path : List Nat) :
    Nat → Progress → List Element → Progress
  | _, p, [] => p
  | index, p, .token t :: rest =>
      sweep target enclosing orphans path (index + 1) { p with kept := p.kept ++ [.token t] } rest
  | index, p, .node entry :: rest =>
      let next :=
        if target.deletes enclosing entry then p.delete entry
        else
          p.keep entry ((valueIndex? entry).bind fun value =>
            orphans.at? (path ++ [index, value]))
      sweep target enclosing orphans path (index + 1) next rest

/-- What the last entries of a mapping leave to what follows the mapping. Leading lines are
passed on only at the top. -/
def leftBehind (enclosing : List String) : Option Carry → Option Carry
  | some (.tail comment) => some (.tail comment)
  | some (.leading lines) => if enclosing.isEmpty then some (.leading lines) else none
  | none => none

/-- What is made of a mapping. -/
def mapping (target : Target) (n : Node) (cursor : Cursor) (orphans : Orphans) :
    Option Node × Orphans :=
  let enclosing := Yaml.enclosingPath cursor
  if !enclosing.isEmpty && !target.path.continues enclosing then (none, orphans)
  else
    let p := sweep target enclosing orphans cursor.path 0 {} n.children
    if p.changed then
      let left := (leftBehind enclosing p.carry?).toList.map fun c => (cursor.path, c)
      (some { n with children := p.kept }, left ++ orphans)
    else (none, orphans)

/-- The trivia at the end of a document that has lost all its entries: its comments. -/
def onlyComments (lead : String) : String :=
  if Text.holdsComment lead then String.ofList (withoutBlankLines lead.toList) else ""

/-- What is made of a document: the token at its end takes over what its mapping left. -/
def document (n : Node) (orphans : Orphans) : Option Node := do
  let mappingIndex ← n.positionOf? (.yaml .mapping)
  let mapping ← Yaml.documentMapping? n
  let carry ← orphans.at? [mappingIndex]
  let index ← n.children.findIdx? fun e => e.token?.any fun t => t.kind == .eof
  let last ← (← n.children[index]?).token?
  let lead := carry.onto last.lead
  if mapping.childNodes.isEmpty then
    some { n with children := [.token { last with lead := onlyComments lead }] }
  else some (n.withChild index (.token { last with lead }))

/-- The visitor that deletes a property. -/
def visitor (target : Target) : Visitor Orphans :=
  Yaml.Hooks.visitor
    { mapping := mapping target
      document := fun n _ orphans => (document n orphans, orphans) }

/-- The target that two options ask for. -/
def target? (key : Option String) (expected : Option Recipe.OptionValue) : Option Target := do
  let path ← (Yaml.KeyPath.parse (← key)).toOption
  some { path, expected? := expected }

end Deletion

/-- Deletes a property, if asked only where it has a certain value, and if asked folds single
nested entries behind it. Without a key it deletes nothing, and validation says why. -/
def deleteProperty (key : Option String) (expected : Option Recipe.OptionValue)
    (coalesce : Option Bool) : Recipe where
  name := "DeleteProperty"
  description := "Delete a YAML property and prune the mappings it leaves empty."
  options :=
    [ ⟨"property_key", true, key.map .text, .keyPath⟩,
      ⟨"expected_value", false, expected, .any⟩,
      ⟨"coalesce", false, coalesce.map .flag, .boolean⟩ ]
  pass? := (Deletion.target? key expected).map fun t => Recipe.passOf (Deletion.visitor t) []
  children := if coalesce.getD false then [coalesceProperties] else []

end Codemod.Recipes
