import Codemod.Toml.Number

/-!
TOML documents: lines with a key and its value, in sections under headers. The main function is
`parse?`, which gives the table that a document describes, or nothing if its text is malformed
or one of its lines contradicts an earlier one.
-/

namespace Codemod.Toml

/-- How deep values may be nested, and how many keys dots may join. -/
def depthLimit : Nat := 80

/-- A character of a key without quotes. -/
def isBareKey (c : Char) : Bool :=
  c.isAlphanum || c = '_' || c = '-'

/-- One of the keys that dots join. -/
def keyPart : Reader String := do
  match ← quoted false with
  | some text => return text
  | none =>
      let word ← takeWhile isBareKey
      guard !word.isEmpty
      return String.ofList word

/-- A key with the blanks behind it. -/
def key : Reader Key := do
  let first ← keyPart
  spaces
  let others ← repeated do
    if ← accept "." then
      spaces
      let part ← keyPart
      spaces
      return some part
    else return none
  guard (others.length < depthLimit)
  let parts := first :: others
  return ⟨parts.dropLast, parts.getLastD first⟩

/-- A key with its value, and what may stand on either side of the sign between them. -/
def pair (around : Reader Unit) (value : Reader Value) : Reader (Key × Value) := do
  let k ← key
  around
  expect "="
  around
  return (k, ← value)

/-- A value between brackets or braces, or one that holds no others. -/
def valueOver (inner : Option (Reader Value)) : Reader Value := do
  if ← accept "[" then
    return .array (← separated "]" (← inner))
  else if ← accept "\x7b" then
    let pairs ← separated "\x7d" (pair gap (← inner))
    return .table .inline (← Table.insertAll? .inline [] pairs)
  else
    match ← quoted true with
    | some text => return .text text
    | none => bareValue

/-- A value with others nested in it down to a depth. -/
def valueWithin : Nat → Reader Value
  | 0 => valueOver none
  | depth + 1 => valueOver (some (valueWithin depth))

/-- A value. -/
def value : Reader Value :=
  valueWithin depthLimit

/-- The header of a section: one table, or one more of several under the same key. -/
inductive Header where
  | table (key : Key)
  | item (key : Key)
deriving DecidableEq, Repr

/-- A line that says something. -/
inductive Statement where
  | header (header : Header)
  | pair (key : Key) (value : Value)

/-- The header behind its first bracket. -/
def header : Reader Header := do
  if ← accept "[" then
    spaces
    let k ← key
    expect "]]"
    return .item k
  else
    spaces
    let k ← key
    expect "]"
    return .table k

/-- A line, which may be empty. -/
def line : Reader (Option Statement) := do
  spaces
  let blank := (← atEnd) || (← ahead "\n") || (← ahead "\r\n") || (← ahead "#")
  let statement : Option Statement ←
    if blank then pure none
    else if ← accept "[" then some <$> Statement.header <$> header
    else
      let (k, v) ← pair spaces value
      pure (some (Statement.pair k v))
  lineEnd
  return statement

/-- The lines of a document that say something. -/
def statements : Reader (List Statement) := do
  let lines ← repeated do
    if ← atEnd then return none else some <$> line
  return lines.reduceOption

/-- A header with the keys under it. -/
structure Section where
  header : Header
  pairs : List (Key × Value)

/-- The keys in front of the first header, and the sections. -/
def sections : List Statement → List (Key × Value) × List Section
  | [] => ([], [])
  | .pair key value :: rest =>
      let (pairs, others) := sections rest
      ((key, value) :: pairs, others)
  | .header header :: rest =>
      let (pairs, others) := sections rest
      ([], ⟨header, pairs⟩ :: others)

/-- The table of a document with one more section. A header may not name a table again, unless
it was only a step on the way to another one. -/
def addSection? (root : Table) (added : Section) : Option Table :=
  match added.header with
  | .table key =>
      Table.alterAt false
        (fun _ parent =>
          match parent.lookup key.last with
          | none => do
              parent.add? key.last (.table .header (← Table.insertAll? .header [] added.pairs))
          | some (.table .implied inner) => do
              some (parent.put key.last
                (.table .header (← Table.insertAll? .header inner added.pairs)))
          | some _ => none)
        key.path .header root
  | .item key =>
      Table.alterAt false
        (fun _ parent => do
          let item ← Table.insertAll? .header [] added.pairs
          match parent.lookup key.last with
          | none => parent.add? key.last (.tables [item])
          | some (.tables items) => some (parent.put key.last (.tables (items ++ [item])))
          | some _ => none)
        key.path .header root

/-- The table that statements describe. -/
def tableOf? (lines : List Statement) : Option Table := do
  let (pairs, others) := sections lines
  let root ← Table.insertAll? .header [] pairs
  others.foldlM addSection? root

/-- The table that a document describes. A mark of the byte order may stand in front. -/
def parse? (text : String) : Option Table := do
  let cs := text.toList
  let cs := if cs.head? = some '\ufeff' then cs.tail else cs
  let (lines, _) ← statements cs
  tableOf? lines

end Codemod.Toml
