import Codemod.Text.Blank

/-!
Dotted paths of keys. A segment may be quoted, which lets it hold dots.
-/

namespace Codemod.Yaml

/-- What is wrong with a path. -/
inductive PathFault where
  | emptyPath
  | emptySegment
  | quoteInside
  | blank
  | textBehindQuote
  | unterminated
deriving DecidableEq, Repr

/-- The words for what is wrong with a path. -/
def PathFault.describe : PathFault → String
  | emptyPath => "empty key path"
  | emptySegment => "empty path segment"
  | quoteInside => "unexpected quote inside key"
  | blank => "whitespace not allowed in key"
  | textBehindQuote => "unexpected text after quoted key"
  | unterminated => "unterminated quoted key"

/-- A text that is no path, and why. -/
structure PathError where
  input : String
  fault : PathFault
deriving DecidableEq, Repr

/-- The error in words. -/
def PathError.message (e : PathError) : String :=
  "invalid key path '" ++ e.input ++ "': " ++ e.fault.describe

/-- The segments of a path, of which there is at least one. -/
structure KeyPath where
  parts : List String
  parts_ne_nil : parts ≠ []
deriving DecidableEq, Repr

namespace KeyPath

/-- The character that stands behind a backslash in double quotes for this one. -/
def escaped : Char → Char
  | 'n' => '\n'
  | 't' => '\t'
  | 'r' => '\r'
  | c => c

/-- The segments of a path from one of them on. `first` tells that it is the first one,
`current` is what was read of it, `quoted` tells that it is quoted, and `quote` that its
closing quote is still ahead. -/
def segments (first : Bool) (quote : Option Char) (quoted : Bool) (current : List Char) :
    List Char → Except PathFault (List (List Char))
  | [] =>
      if quote.isSome then .error .unterminated
      else if !current.isEmpty || quoted then .ok [current]
      else if first then .ok []
      else .error .emptySegment
  | c :: rest =>
      match quote with
      | some q =>
          if c = q then segments first none quoted current rest
          else if q = '"' && c = '\\' then
            match rest with
            | [] => .error .unterminated
            | d :: rest' => segments first (some q) quoted (current ++ [escaped d]) rest'
          else segments first (some q) quoted (current ++ [c]) rest
      | none =>
          if c = '.' then
            if current.isEmpty && !quoted then .error .emptySegment
            else do
              let others ← segments false none false [] rest
              .ok (current :: others)
          else if c = '"' || c = '\'' then
            if !current.isEmpty || quoted then .error .quoteInside
            else segments first (some c) true current rest
          else if Text.isBlank c then .error .blank
          else if quoted then .error .textBehindQuote
          else segments first none quoted (current ++ [c]) rest

/-- The path that a text spells. -/
def parse (input : String) : Except PathError KeyPath :=
  match segments true none false [] input.toList with
  | .error fault => .error ⟨input, fault⟩
  | .ok [] => .error ⟨input, .emptyPath⟩
  | .ok (part :: parts) => .ok ⟨(part :: parts).map String.ofList, by simp⟩

/-- The segments with dots between them, without quotes. -/
def display (path : KeyPath) : String :=
  String.intercalate "." path.parts

/-- The path consists of these segments. -/
def spells (path : KeyPath) (segments : List String) : Bool :=
  path.parts == segments

/-- The segments lead towards the end of the path without reaching it. -/
def continues (path : KeyPath) (segments : List String) : Bool :=
  segments.length < path.parts.length && segments.isPrefixOf path.parts

end KeyPath

end Codemod.Yaml
