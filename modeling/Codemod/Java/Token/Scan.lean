import Codemod.Java.Error
import Codemod.Java.Token.Basic
import Codemod.Text.Blank
import Codemod.Text.Slice

/-!
Splitting a text into tokens. Every character lands in the trivia or the text of exactly one
token.
-/

namespace Codemod.Java.Scan

open Codemod.Tree

/-- Where the scan of trivia stands. A block comment keeps the offset of its start, and
whether an asterisk that can close it came last. -/
inductive TriviaState where
  | outside
  | lineComment
  | blockComment (start : Nat) (asterisk : Bool)

/-- Splits off the blanks and comments in front, where the text starts at `offset`. -/
def trivia (state : TriviaState) (offset : Nat) :
    List Char → Except ParseError (List Char × List Char)
  | [] =>
      match state with
      | .blockComment start _ => .error (.unterminated .comment start)
      | _ => .ok ([], [])
  | c :: rest =>
      match state with
      | .outside =>
          if c = '/' then
            match rest with
            | '/' :: rest' => do
                let (taken, left) ← trivia .lineComment (offset + 2) rest'
                .ok ('/' :: '/' :: taken, left)
            | '*' :: rest' => do
                let (taken, left) ← trivia (.blockComment offset false) (offset + 2) rest'
                .ok ('/' :: '*' :: taken, left)
            | _ => .ok ([], c :: rest)
          else if Text.isBlank c then do
            let (taken, left) ← trivia .outside (offset + c.utf8Size) rest
            .ok (c :: taken, left)
          else .ok ([], c :: rest)
      | .lineComment => do
          let next := if c = '\n' then .outside else .lineComment
          let (taken, left) ← trivia next (offset + c.utf8Size) rest
          .ok (c :: taken, left)
      | .blockComment start asterisk => do
          let next :=
            if asterisk && c = '/' then .outside else .blockComment start (c = '*')
          let (taken, left) ← trivia next (offset + c.utf8Size) rest
          .ok (c :: taken, left)

/-- The character is a letter or digit of ASCII. -/
def isAsciiAlphanumeric (c : Char) : Bool :=
  c.isAlpha || c.isDigit

/-- The next character is a digit of ASCII. -/
def startsWithDigit : List Char → Bool
  | c :: _ => c.isDigit
  | [] => false

/-- A number goes on with the character. A sign belongs to it behind the exponent's letter,
and a dot only in front of a digit. -/
def continuesNumber (hex : Bool) (previous c : Char) (rest : List Char) : Bool :=
  if c = '.' then startsWithDigit rest
  else if c = '+' || c = '-' then !hex && (previous = 'e' || previous = 'E')
  else isAsciiAlphanumeric c || c = '_'

/-- Splits off the rest of a number. -/
def number (hex : Bool) (previous : Char) : List Char → List Char × List Char
  | [] => ([], [])
  | c :: rest =>
      if continuesNumber hex previous c rest then
        let (taken, left) := number hex c rest
        (c :: taken, left)
      else ([], c :: rest)

/-- The number is written in base sixteen. -/
def isHex : List Char → Bool
  | '0' :: 'x' :: _ | '0' :: 'X' :: _ => true
  | _ => false

/-- Splits off a literal behind its opening quote, up to and including the closing one.
A quote behind a backslash does not close it, and it ends on its line. -/
def quoted (quote : Char) (escaped : Bool) : List Char → Option (List Char × List Char)
  | [] => none
  | c :: rest =>
      if c = '\n' then none
      else if c = quote && !escaped then some ([c], rest)
      else do
        let (taken, left) ← quoted quote (c = '\\' && !escaped) rest
        some (c :: taken, left)

/-- A number starts with the characters. -/
def startsNumber : List Char → Bool
  | '.' :: rest => startsWithDigit rest
  | cs => startsWithDigit cs

/-- The first sign that the characters start with. -/
def sign? (cs : List Char) : Option String :=
  signs.find? fun sign => sign.toList.isPrefixOf cs

/-- Splits off the token in front: its kind, its characters and the characters behind it. -/
def tokenText (offset : Nat) (c : Char) (rest : List Char) :
    Except ParseError (TokenKind × List Char × List Char) :=
  if startsWord c then
    let word := c :: rest.takeWhile continuesWord
    .ok (wordKind (String.ofList word), word, rest.dropWhile continuesWord)
  else if startsNumber (c :: rest) then
    let (taken, left) := number (isHex (c :: rest)) ' ' (c :: rest)
    .ok (.literal, taken, left)
  else if c = '"' then
    if ['"', '"'].isPrefixOf rest then .error (.unsupported .textBlock offset)
    else
      match quoted c false rest with
      | some (taken, left) => .ok (.literal, c :: taken, left)
      | none => .error (.unterminated .stringLiteral offset)
  else if c = '\'' then
    match quoted c false rest with
    | some (taken, left) => .ok (.literal, c :: taken, left)
    | none => .error (.unterminated .characterLiteral offset)
  else
    match sign? (c :: rest) with
    | some sign => .ok (.punct, sign.toList, (c :: rest).drop sign.toList.length)
    | none => .error (.unexpectedChar c offset)

/-- The tokens of a text without any but the one at the end, behind this trivia. -/
def endTokens (lead : List Char) (start : Nat) : Tokens :=
  { ahead := [], last := ⟨⟨.eof, String.ofList lead, ""⟩, start⟩ }

/-- The tokens of a text that starts at `offset`, at most `limit` of them. -/
def tokensWithin : Nat → Nat → List Char → Except ParseError Tokens
  | 0, offset, cs => do
      let (lead, rest) ← trivia .outside offset cs
      let start := offset + Text.size lead
      if rest.isEmpty then .ok (endTokens lead start) else .error (.stalled start)
  | limit + 1, offset, cs => do
      let (lead, rest) ← trivia .outside offset cs
      let start := offset + Text.size lead
      match rest with
      | [] => .ok (endTokens lead start)
      | c :: rest => do
          let (kind, text, left) ← tokenText start c rest
          let tokens ← tokensWithin limit (start + Text.size text) left
          .ok (tokens.cons ⟨⟨kind, String.ofList lead, String.ofList text⟩, start⟩)

end Scan

/-- The tokens of a text. Each takes at least one character. -/
def tokenize (source : String) : Except ParseError Tokens :=
  Scan.tokensWithin source.toList.length 0 source.toList

end Codemod.Java
