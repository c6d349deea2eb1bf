import Codemod.Java.Token.Scan

/-!
Texts split into tokens by byte offsets. The scan takes what stands behind its offset, searches in
it for the end of the trivia or token there, and cuts the text at the offset that it comes to. Its
loops have a limit of steps and give nothing when they need more.
-/

namespace Codemod.Java.Indexed

open Codemod.Text Codemod.Tree

section
variable (text : List Char)

/-! ### Trivia -/

/-- The blanks and comments from `start` on and their end, of which those up to the offset are
known and at most `limit` are still to come. -/
def triviaWithin (start : Nat) : Nat → Nat → Checked ParseError (List Char × Nat)
  | 0, _ => none
  | limit + 1, offset => do
      let rest ← from? text offset
      if ['/', '/'].isPrefixOf rest then
        let length := (find? (fun cs => cs.head?.any (· = '\n')) rest).getD (size rest)
        triviaWithin start limit (offset + length)
      else if ['/', '*'].isPrefixOf rest then
        match find? ['*', '/'].isPrefixOf (← from? rest 2) with
        | some length => triviaWithin start limit (offset + (length + 4))
        | none => throw (.unterminated .comment offset)
      else
        match rest with
        | [] => return (← slice? text start offset, offset)
        | c :: _ =>
            if isBlank c then triviaWithin start limit (offset + c.utf8Size)
            else return (← slice? text start offset, offset)

/-! ### Tokens -/

/-- A number starts with the character. -/
def startsNumber (c : Char) (rest : List Char) : Option Bool :=
  if c.isDigit then return true
  else if c = '.' then do return Scan.startsWithDigit (← from? rest 1)
  else return false

/-- The byte is the sign of an exponent. -/
def isExponentSign (hex : Bool) (rest : List Char) (c : Char) (length : Nat) : Option Bool :=
  if (c = '+' || c = '-') && !hex && 0 < length then do
    let previous ← byte? rest (length - 1)
    return previous = 'e' || previous = 'E'
  else return false

/-- The number goes up to here. A dot without a digit behind it does not belong to it. -/
def stopsNumber (hex : Bool) (rest : List Char) (length : Nat) : Option Bool :=
  match byte? rest length with
  | none => return true
  | some c => do
      let sign ← isExponentSign hex rest c length
      if Scan.isAsciiAlphanumeric c || c = '_' || c = '.' || sign then
        return c = '.' && !(byte? rest (length + 1)).any Char.isDigit && 0 < length
      else return true

/-- The length of the number that the characters start with. -/
def numberLength (rest : List Char) : Option Nat :=
  let hex := ['0', 'x'].isPrefixOf rest || ['0', 'X'].isPrefixOf rest
  seek (size rest) (stopsNumber hex rest) 0

/-- The offset behind the closing quote, where the characters stand at `index`. -/
def quotedFrom (quote : Char) (escaped : Bool) (index : Nat) : List Char → Option Nat
  | [] => none
  | c :: rest =>
      if c = '\n' then none
      else if c = '\\' && !escaped then quotedFrom quote true (index + c.utf8Size) rest
      else if c = quote && !escaped then some (index + c.utf8Size)
      else quotedFrom quote false (index + c.utf8Size) rest

/-- The length of a literal in quotes, both of them included. -/
def quotedLength (quote : Char) : List Char → Option Nat
  | [] => none
  | c :: rest => quotedFrom quote false c.utf8Size rest

/-- The literal in quotes at the offset and its end. -/
def quoted (quote : Char) (what : Unended) (offset : Nat) (rest : List Char) :
    Checked ParseError (TokenKind × List Char × Nat) := do
  match quotedLength quote rest with
  | some length => return (.literal, ← slice? text offset (offset + length), offset + length)
  | none => throw (.unterminated what offset)

/-- The token at the offset, where the character stands: its kind, its characters and its end. -/
def token (offset : Nat) (c : Char) : Checked ParseError (TokenKind × List Char × Nat) := do
  let rest ← from? text offset
  if startsWord c then
    let length := (find? (fun cs => cs.head?.any (!continuesWord ·)) rest).getD (size rest)
    let word ← upTo? rest length
    return (wordKind (String.ofList word), word, offset + length)
  else if ← startsNumber c rest then
    let length ← numberLength rest
    return (.literal, ← slice? text offset (offset + length), offset + length)
  else if c = '"' then
    if ['"', '"', '"'].isPrefixOf rest then throw (.unsupported .textBlock offset)
    else quoted text '"' .stringLiteral offset rest
  else if c = '\'' then quoted text '\'' .characterLiteral offset rest
  else
    match Scan.sign? rest with
    | some sign => return (.punct, sign.toList, offset + size sign.toList)
    | none => throw (.unexpectedChar c offset)

/-- The tokens from the offset on, of which at most `limit` are still to come, the end included. -/
def tokensWithin : Nat → Nat → Checked ParseError Tokens
  | 0, _ => none
  | limit + 1, offset => do
      let (lead, start) ← triviaWithin text offset (text.length + 1) offset
      match ← from? text start with
      | [] => return Scan.endTokens lead start
      | c :: _ =>
          let (kind, word, stop) ← token text start c
          let others ← tokensWithin limit stop
          return others.cons ⟨⟨kind, String.ofList lead, String.ofList word⟩, start⟩

end

/-- The tokens of a text, of which each one but the end takes at least one character. -/
def tokenize (source : String) : Checked ParseError Tokens :=
  tokensWithin source.toList (source.length + 1) 0

end Codemod.Java.Indexed
