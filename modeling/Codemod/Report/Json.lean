/-!
Values of reports as JSON text, one field or item a line, two spaces deeper at each level.
-/

namespace Codemod.Report

/-- A value of a report. -/
inductive Value where
  | text (value : String)
  | number (value : Nat)
  | flag (value : Bool)
  | list (items : List Value)
  | record (fields : List (String × Value))

/-- The letters behind a backslash for control characters that have one. -/
def shortEscapes : List (Char × Char) :=
  [('"', '"'), ('\\', '\\'), ('\x08', 'b'), ('\t', 't'), ('\n', 'n'), ('\x0c', 'f'), ('\r', 'r')]

/-- A digit of base sixteen, in lower case. -/
def hexDigit (n : Nat) : Char :=
  if n < 10 then Char.ofNat ('0'.toNat + n) else Char.ofNat ('a'.toNat + (n - 10))

/-- A character as it stands between quotes. -/
def escapeChar (c : Char) : List Char :=
  match shortEscapes.lookup c with
  | some letter => ['\\', letter]
  | none =>
      if c.toNat < 0x20 then
        ['\\', 'u', '0', '0', hexDigit (c.toNat / 16), hexDigit (c.toNat % 16)]
      else [c]

/-- A text in quotes. -/
def quote (s : String) : String :=
  "\"" ++ String.ofList (s.toList.flatMap escapeChar) ++ "\""

/-- A line break and the indentation of a level. -/
def newLine (level : Nat) : String :=
  "\n" ++ String.ofList (List.replicate (2 * level) ' ')

/-- Texts between brackets, each on a line; nothing between them if there are none. -/
def enclose (level : Nat) (opening closing : String) (items : List String) : String :=
  if items.isEmpty then opening ++ closing
  else
    opening ++ newLine (level + 1)
      ++ String.intercalate ("," ++ newLine (level + 1)) items ++ newLine level ++ closing

mutual

/-- The text of a value at a level. -/
def Value.render (level : Nat) : Value → String
  | .text value => quote value
  | .number value => toString value
  | .flag true => "true"
  | .flag false => "false"
  | .list items => enclose level "[" "]" (Value.renderList (level + 1) items)
  | .record fields => enclose level "\x7b" "\x7d" (Value.renderFields (level + 1) fields)

/-- The texts of some values at a level. -/
def Value.renderList (level : Nat) : List Value → List String
  | [] => []
  | v :: vs => v.render level :: Value.renderList level vs

/-- The texts of some fields at a level. -/
def Value.renderFields (level : Nat) : List (String × Value) → List String
  | [] => []
  | (name, v) :: fields => (quote name ++ ": " ++ v.render level) :: Value.renderFields level fields

end

end Codemod.Report
