import Codemod.Text.Split
import Codemod.Tree.Cursor
import Codemod.Yaml.KeyPath

/-!
The parts of an entry, and the entries that a key path addresses. A path may be spread over
nested mappings, dotted keys and quoted keys in any way. Between single quotes a quote is written
twice; between double quotes a backslash gives the character behind it another meaning.
-/

namespace Codemod.Yaml

open Codemod.Tree

/-- What stands between two quotes of this kind, if the text is quoted by them. -/
def between? (quote : Char) : List Char → Option (List Char)
  | c :: rest =>
      if c = quote && rest.getLast? == some quote then some rest.dropLast else none
  | [] => none

/-- The text stands between single or double quotes. -/
def isQuoted (raw : String) : Bool :=
  (between? '\'' raw.toList).isSome || (between? '"' raw.toList).isSome

/-- A quote written twice stands for one. -/
def undouble : List Char → List Char
  | '\'' :: '\'' :: rest => '\'' :: undouble rest
  | c :: rest => c :: undouble rest
  | [] => []

/-- The character that stands behind a backslash for this one. -/
def escaped : Char → Char
  | 'n' => '\n'
  | 't' => '\t'
  | 'r' => '\r'
  | '0' => '\x00'
  | c => c

/-- A backslash gives the character behind it another meaning; one at the end stands for
itself. -/
def unescape : List Char → List Char
  | '\\' :: c :: rest => escaped c :: unescape rest
  | c :: rest => c :: unescape rest
  | [] => []

/-- The value of a key or scalar without its quotes. -/
def unquote (raw : String) : String :=
  match between? '\'' raw.toList, between? '"' raw.toList with
  | some inner, _ => String.ofList (undouble inner)
  | none, some inner => String.ofList (unescape inner)
  | none, none => raw

/-- The key token of an entry, quotes included. -/
def entryKey? (n : Node) : Option Token :=
  if n.kind = .yaml .entry then n.tokens.find? fun t => t.kind == .text else none

/-- The value of an entry. -/
def entryValue? (n : Node) : Option Node :=
  if n.kind = .yaml .entry then n.childNodes.getLast? else none

/-- The root mapping of a document. -/
def documentMapping? (document : Node) : Option Node :=
  document.firstChild? (.yaml .mapping)

/-- The text of a scalar, quotes included. -/
def scalarText? (n : Node) : Option String :=
  if n.kind = .yaml .scalar then n.tokens.head?.map Token.text else none

/-- The segments of a key. A quoted key is one segment, another one is split at its dots. -/
def keySegments (raw : String) : List String :=
  if isQuoted raw then [unquote raw]
  else (Text.splitOn '.' raw.toList).map String.ofList

/-- The segments of an entry's own key. -/
def entrySegments (n : Node) : List String :=
  match entryKey? n with
  | some key => keySegments key.text
  | none => []

/-- The segments of the entries around a place, from the outermost in. -/
def enclosingPath (cursor : Cursor) : List String :=
  (cursor.ancestors.filter fun n => n.kind == .yaml .entry).reverse.flatMap entrySegments

/-- The entries below a mapping whose keys spell the segments, at most `limit` levels deep. -/
def matchesWithin : Nat → List String → Node → List Node
  | 0, _, _ => []
  | limit + 1, remaining, mapping =>
      mapping.childNodes.flatMap fun entry =>
        let segments := entrySegments entry
        if segments.isEmpty || !segments.isPrefixOf remaining then []
        else
          let rest := remaining.drop segments.length
          if rest.isEmpty then [entry]
          else
            match entryValue? entry with
            | some value =>
                if value.kind = .yaml .mapping then matchesWithin limit rest value else []
            | none => []

/-- The entries of a document that a path addresses, in order. Each level spells at least one
segment. -/
def findEntries (document : Node) (path : KeyPath) : List Node :=
  match documentMapping? document with
  | some mapping => matchesWithin path.parts.length path.parts mapping
  | none => []

mutual

/-- The entries below a node in order, each with the segments of those around it and its
own, where `path` leads to the node. -/
def entryPaths (path : List String) : Node → List (List String × Node)
  | n@⟨kind, _, children, _, _⟩ =>
      if kind = .yaml .entry then
        let path := path ++ entrySegments n
        (path, n) :: entryPathsList path children
      else entryPathsList path children

/-- The entries in a child, each with its full path. -/
def entryPathsElement (path : List String) : Element → List (List String × Node)
  | .node n => entryPaths path n
  | .token _ => []

/-- The entries in some children, each with its full path. -/
def entryPathsList (path : List String) : List Element → List (List String × Node)
  | [] => []
  | e :: es => entryPathsElement path e ++ entryPathsList path es

end

mutual

/-- The scalars below a node in order, each as its raw text with the segments of the entries
around it, where `path` leads to the node. -/
def leafPaths (path : List String) : Node → List (List String × String)
  | n@⟨kind, _, children, _, _⟩ =>
      if kind = .yaml .entry then leafPathsList (path ++ entrySegments n) children
      else
        match scalarText? n with
        | some raw => [(path, raw)]
        | none => leafPathsList path children

/-- The scalars in a child, each with its full path. -/
def leafPathsElement (path : List String) : Element → List (List String × String)
  | .node n => leafPaths path n
  | .token _ => []

/-- The scalars in some children, each with its full path. -/
def leafPathsList (path : List String) : List Element → List (List String × String)
  | [] => []
  | e :: es => leafPathsElement path e ++ leafPathsList path es

end

/-- The scalars of a document in order, each with its full key path. -/
def leaves (document : Node) : List (List String × String) :=
  leafPaths [] document

end Codemod.Yaml
