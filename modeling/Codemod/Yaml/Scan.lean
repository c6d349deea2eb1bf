/-!
The pieces of a line, split off a list of characters, and why a text is no block-mapping document.
Each function gives the characters that it takes and those that it leaves; together they are the
characters it was given.
-/

namespace Codemod.Yaml

/-! ### Causes -/

/-- A construct of the language that is recognised and not supported. -/
inductive Construct where
  | contentAfterMarker
  | tabIndentation
  | multipleDocuments
  | documentEnd
  | sequence
  | complexKey
  | flowCollection
  | blockScalar
  | anchor
  | aliasUse
  | tag
  | directive
  | reservedIndicator
deriving DecidableEq, Repr

/-- What the grammar asks for at a place. -/
inductive Wanted where
  | colon
  | key
  | endOfLine
  | closingQuote
deriving DecidableEq, Repr

/-- Why a text cannot be parsed, with the line, counted from one, and the byte offset of the
place. -/
inductive ParseError where
  | unsupported (construct : Construct) (line offset : Nat)
  | expected (wanted : Wanted) (line offset : Nat)
  | indentation (line offset : Nat)
deriving DecidableEq, Repr

/-- The words for an unsupported construct. -/
def Construct.describe : Construct → String
  | contentAfterMarker => "content after document marker"
  | tabIndentation => "tab indentation"
  | multipleDocuments => "multiple documents"
  | documentEnd => "document end marker"
  | sequence => "sequence"
  | complexKey => "complex key"
  | flowCollection => "flow collection"
  | blockScalar => "block scalar"
  | anchor => "anchor"
  | aliasUse => "alias"
  | tag => "tag"
  | directive => "directive"
  | reservedIndicator => "reserved indicator"

/-- The words for what the grammar asks for. -/
def Wanted.describe : Wanted → String
  | colon => "':' after key"
  | key => "key"
  | endOfLine => "end of line after quoted scalar"
  | closingQuote => "closing quote on the same line"

namespace ParseError

/-- The byte offset of the place. -/
def offset : ParseError → Nat
  | unsupported _ _ offset | expected _ _ offset | indentation _ offset => offset

/-- The error in words. -/
def message : ParseError → String
  | unsupported construct line _ =>
      "unsupported YAML construct '" ++ construct.describe ++ "' on line " ++ toString line
  | expected wanted line _ => "expected " ++ wanted.describe ++ " on line " ++ toString line
  | indentation line _ => "unexpected indentation on line " ++ toString line

end ParseError

/-! ### Pieces of a line -/

/-- A blank inside a line. -/
def isSpace (c : Char) : Bool :=
  c = ' ' || c = '\t'

/-- A line feed or a carriage return. -/
def isBreak (c : Char) : Bool :=
  c = '\n' || c = '\r'

/-- An indicator character acts as one only with this behind it. -/
def endsIndicator : List Char → Bool
  | [] => true
  | c :: _ => isSpace c || isBreak c

/-- The characters start with a marker line's sign. -/
def startsMarker (marker : String) (cs : List Char) : Bool :=
  marker.toList.isPrefixOf cs && endsIndicator (cs.drop marker.toList.length)

/-- The construct that the characters start, if it is not supported. Some stand only in front
of a key. -/
def unsupported? (inValue : Bool) (cs : List Char) : Option Construct :=
  if !inValue && startsMarker "---" cs then some .multipleDocuments
  else if !inValue && startsMarker "..." cs then some .documentEnd
  else
    match cs with
    | [] => none
    | '-' :: rest => if endsIndicator rest then some .sequence else none
    | '?' :: rest => if !inValue && endsIndicator rest then some .complexKey else none
    | '[' :: _ | '\x7b' :: _ => some .flowCollection
    | '|' :: _ | '>' :: _ => some .blockScalar
    | '&' :: _ => some .anchor
    | '*' :: _ => some .aliasUse
    | '!' :: _ => some .tag
    | '%' :: _ => some .directive
    | '@' :: _ | '\x60' :: _ => some .reservedIndicator
    | _ => none

/-- Splits off blanks, line breaks and comments; `comment` tells that a comment is open, which
ends with its line. -/
def trivia (comment : Bool) : List Char → List Char × List Char
  | [] => ([], [])
  | c :: rest =>
      if comment then
        let (taken, left) := trivia (c != '\n') rest
        (c :: taken, left)
      else if isSpace c || isBreak c then
        let (taken, left) := trivia false rest
        (c :: taken, left)
      else if c = '#' then
        let (taken, left) := trivia true rest
        (c :: taken, left)
      else ([], c :: rest)

/-- Splits off the blanks inside a line. -/
def spaces (cs : List Char) : List Char × List Char :=
  (cs.takeWhile isSpace, cs.dropWhile isSpace)

/-- The characters without the blanks at their end. -/
def trimSpaces (cs : List Char) : List Char :=
  (cs.reverse.dropWhile isSpace).reverse

/-- The characters up to the end of the line or a comment, which begins behind a blank. -/
def plainRun (afterSpace : Bool) : List Char → List Char
  | [] => []
  | c :: rest =>
      if isBreak c || afterSpace && c = '#' then []
      else c :: plainRun (isSpace c) rest

/-- Splits off a scalar without quotes. -/
def plainScalar (cs : List Char) : List Char × List Char :=
  let raw := trimSpaces (plainRun false cs)
  (raw, cs.drop raw.length)

/-- The characters up to the colon behind a key, the end of the line or a comment. -/
def keyRun (afterSpace : Bool) : List Char → List Char
  | [] => []
  | c :: rest =>
      if isBreak c || afterSpace && c = '#' || c = ':' && endsIndicator rest then []
      else c :: keyRun (isSpace c) rest

/-- Splits off what stands behind an opening quote, up to and including the closing one.
Behind a backslash a double quote does not close, and a single quote is written twice. -/
def quotedRun (quote : Char) : List Char → Option (List Char × List Char)
  | [] => none
  | c :: rest =>
      if isBreak c then none
      else if c = '\\' && quote = '"' then
        match rest with
        | [] => none
        | d :: rest' => (quotedRun quote rest').map fun (taken, left) => (c :: d :: taken, left)
      else if c = quote then
        match rest with
        | '\'' :: rest' =>
            if quote = '\'' then
              (quotedRun quote rest').map fun (taken, left) => (c :: '\'' :: taken, left)
            else some ([c], rest)
        | _ => some ([c], rest)
      else (quotedRun quote rest).map fun (taken, left) => (c :: taken, left)

end Codemod.Yaml
