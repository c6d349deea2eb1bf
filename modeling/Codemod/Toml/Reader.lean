/-!
Reading a list of characters from its front: a reader gives a value and the characters that it
leaves, or nothing if they do not begin as it demands. Quoted texts: between single quotes all
characters stand for themselves, between double quotes a backslash begins an escape. Three quotes
enclose a text of several lines.
-/

namespace Codemod.Toml

/-- A reader of characters. -/
abbrev Reader (α : Type) := StateT (List Char) Option α

/-- The text comes next. -/
def ahead (text : String) : Reader Bool := fun cs =>
  some (text.toList.isPrefixOf cs, cs)

/-- Takes the text if it comes next, and tells whether it did. -/
def accept (text : String) : Reader Bool := fun cs =>
  if text.toList.isPrefixOf cs then some (true, cs.drop text.toList.length)
  else some (false, cs)

/-- Takes the text, which must come next. -/
def expect (text : String) : Reader Unit := do
  guard (← accept text)

/-- No character comes next. -/
def atEnd : Reader Bool := fun cs =>
  some (cs.isEmpty, cs)

/-- Takes the characters of a class. -/
def takeWhile (isIn : Char → Bool) : Reader (List Char) := fun cs =>
  some (cs.takeWhile isIn, cs.dropWhile isIn)

/-- The values of an item up to the point where it gives none, which must be reached within a
number of items. -/
def repeatWithin {α : Type} (item : Reader (Option α)) : Nat → Reader (List α)
  | 0 => failure
  | n + 1 => do
      match ← item with
      | none => return []
      | some a => return a :: (← repeatWithin item n)

/-- The values of an item up to the point where it gives none. An item takes a character, so
there are no more of them than characters. -/
def repeated {α : Type} (item : Reader (Option α)) : Reader (List α) := do
  repeatWithin item ((← get).length + 1)

/-- A space or a tab. -/
def isSpace (c : Char) : Bool :=
  c = ' ' || c = '\t'

/-- A character that comments and quoted texts may hold as it is: no control character but
the tab. -/
def isPlain (c : Char) : Bool :=
  c = '\t' || !(c.toNat < 0x20 || c.toNat = 0x7F)

/-- Takes the blanks inside a line. -/
def spaces : Reader Unit := do
  let _ ← takeWhile isSpace

/-- Takes a line break if one comes next, and tells whether it did. -/
def lineBreak : Reader Bool := do
  if ← accept "\n" then return true else accept "\r\n"

/-- Takes a comment up to the end of its line, if one comes next, and tells whether it did. -/
def comment : Reader Bool := do
  if ← accept "#" then
    let _ ← takeWhile isPlain
    return true
  else return false

/-- Takes blanks, line breaks and comments. -/
def gap : Reader Unit := do
  spaces
  let _ ← repeated do
    if (← lineBreak) || (← comment) then
      spaces
      return some ()
    else return none

/-- Takes the end of a line, with a comment in front of it. -/
def lineEnd : Reader Unit := do
  spaces
  let _ ← comment
  if !(← lineBreak) then guard (← atEnd)

/-- The items up to a closing sign, with commas between them and perhaps one behind the last. -/
def separated {α : Type} (closing : String) (item : Reader α) : Reader (List α) := do
  gap
  let items ← repeated do
    if ← ahead closing then return none
    else
      let a ← item
      gap
      if ← accept "," then gap else guard (← ahead closing)
      return some a
  expect closing
  return items

/-! ### Quoted texts -/

/-- The quotes around a text. -/
structure Quotes where
  mark : Char
  escapes : Bool
  lines : Bool
deriving DecidableEq, Repr

/-- What a digit of base sixteen counts. -/
def hexValue? (c : Char) : Option Nat :=
  if c.isDigit then some (c.toNat - '0'.toNat)
  else if 'a' ≤ c && c ≤ 'f' then some (c.toNat - 'a'.toNat + 10)
  else if 'A' ≤ c && c ≤ 'F' then some (c.toNat - 'A'.toNat + 10)
  else none

/-- The character with a code point in base sixteen. -/
def codePoint? (digits : List Char) : Option Char := do
  let values ← digits.mapM hexValue?
  let code := values.foldl (fun code value => code * 16 + value) 0
  if code.isValidChar then some (Char.ofNat code) else none

/-- The characters that a letter behind a backslash stands for. -/
def escapes : List (Char × Char) :=
  [ ('b', '\x08'), ('t', '\t'), ('n', '\n'), ('f', '\x0c'), ('r', '\r'), ('e', '\x1b'),
    ('"', '"'), ('\\', '\\') ]

/-- The letters behind a backslash that begin a code point, with its number of digits. -/
def codeLengths : List (Char × Nat) :=
  [('x', 2), ('u', 4), ('U', 8)]

/-- What an escape stands for, behind its backslash. -/
def escape : Reader (List Char)
  | [] => none
  | c :: rest =>
      match codeLengths.lookup c with
      | some n => do
          guard (n ≤ rest.length)
          some ([← codePoint? (rest.take n)], rest.drop n)
      | none => (escapes.lookup c).map fun d => ([d], rest)

/-- The characters start with a line break. -/
def startsLine (cs : List Char) : Bool :=
  "\n".toList.isPrefixOf cs || "\r\n".toList.isPrefixOf cs

/-- The characters without the blanks and line breaks in front. -/
def dropGaps : List Char → List Char
  | '\r' :: '\n' :: rest => dropGaps rest
  | c :: rest => if isSpace c || c = '\n' then dropGaps rest else c :: rest
  | [] => []

namespace Quotes

/-- Takes the closing quotes. One or two more of the same in front of three belong to the
text. -/
def closing (quotes : Quotes) : Reader (List Char)
  | a :: b :: c :: rest =>
      if quotes.lines then
        if a = quotes.mark && b = quotes.mark && c = quotes.mark then
          let more := (rest.takeWhile (· = quotes.mark)).take 2
          some (more, rest.drop more.length)
        else none
      else if a = quotes.mark then some ([], b :: c :: rest)
      else none
  | a :: rest => if !quotes.lines && a = quotes.mark then some ([], rest) else none
  | [] => none

/-- A piece of the text: an escape, a line break or a character. A backslash at the end of a
line takes the blanks in front of the next text with it. -/
def piece (quotes : Quotes) : Reader (List Char)
  | '\\' :: rest =>
      if !quotes.escapes then some (['\\'], rest)
      else if quotes.lines && startsLine (rest.dropWhile isSpace) then some ([], dropGaps rest)
      else escape rest
  | '\r' :: '\n' :: rest => if quotes.lines then some (['\r', '\n'], rest) else none
  | c :: rest =>
      if isPlain c || quotes.lines && c = '\n' then some ([c], rest) else none
  | [] => none

/-- The text up to the closing quotes, which it takes. -/
def contents (quotes : Quotes) : Reader (List Char) := do
  let pieces ← repeated fun cs =>
    if (quotes.closing cs).isSome then some (none, cs) else (some <$> quotes.piece) cs
  let more ← quotes.closing
  return pieces.flatten ++ more

end Quotes

/-- A quoted text, if a quote comes next. Where lines are allowed, three quotes open one of
several lines, and a line break right behind them does not belong to it. -/
def quoted (lines : Bool) : Reader (Option String) := do
  let read (quotes : Quotes) : Reader (Option String) := do
    if quotes.lines then
      let _ ← lineBreak
    return some (String.ofList (← quotes.contents))
  if lines && (← accept "\"\"\"") then read ⟨'"', true, true⟩
  else if lines && (← accept "'''") then read ⟨'\'', false, true⟩
  else if ← accept "\"" then read ⟨'"', true, false⟩
  else if ← accept "'" then read ⟨'\'', false, false⟩
  else return none

end Codemod.Toml
