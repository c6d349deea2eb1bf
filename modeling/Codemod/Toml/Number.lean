import Codemod.Text.Integer
import Codemod.Text.Split
import Codemod.Toml.Reader
import Codemod.Toml.Value

/-!
Values without quotes: truth values, integers of four bases, fractions and points in time.
-/

namespace Codemod.Toml

/-- The digits of a base with underscores between them. -/
def digits? (base : Nat) (cs : List Char) : Option Nat :=
  let parts := Text.splitOn '_' cs
  if parts.contains [] then none
  else do
    let values ← parts.flatten.mapM hexValue?
    guard (values.all fun value => value < base)
    some (values.foldl (fun n value => n * base + value) 0)

/-- A decimal number without a sign. It has no zeros in front. -/
def decimal? (cs : List Char) : Option Nat :=
  if cs.head? = some '0' && cs != ['0'] then none else digits? 10 cs

/-- What stands behind a sign, and whether the sign is a minus. -/
def unsigned : List Char → Bool × List Char
  | '-' :: rest => (true, rest)
  | '+' :: rest => (false, rest)
  | cs => (false, cs)

/-- An integer of any size. -/
def integer? : List Char → Option Int
  | '0' :: 'x' :: rest => (digits? 16 rest).map Int.ofNat
  | '0' :: 'o' :: rest => (digits? 8 rest).map Int.ofNat
  | '0' :: 'b' :: rest => (digits? 2 rest).map Int.ofNat
  | cs =>
      let (negative, rest) := unsigned cs
      (decimal? rest).map fun n => if negative then -Int.ofNat n else Int.ofNat n

/-- An exponent with its sign. -/
def isExponent (cs : List Char) : Bool :=
  (digits? 10 (unsigned cs).2).isSome

/-- A number with a fraction, an exponent or both, or one of no finite size. -/
def isFraction (cs : List Char) : Bool :=
  let (_, rest) := unsigned cs
  let whole := rest.takeWhile fun c => c.isDigit || c = '_'
  if rest = ['i', 'n', 'f'] || rest = ['n', 'a', 'n'] then true
  else
    (decimal? whole).isSome &&
      match rest.drop whole.length with
      | '.' :: behind =>
          let fraction := behind.takeWhile fun c => c.isDigit || c = '_'
          (digits? 10 fraction).isSome &&
            match behind.drop fraction.length with
            | [] => true
            | c :: exponent => (c = 'e' || c = 'E') && isExponent exponent
      | c :: exponent => (c = 'e' || c = 'E') && isExponent exponent
      | [] => false

/-- A number of two digits between two bounds. -/
def isTwoDigits (low high : Nat) (a b : Char) : Bool :=
  [a, b].all Char.isDigit && (digits? 10 [a, b]).any fun n => low ≤ n && n ≤ high

/-- The number of days in a month. -/
def daysIn (year month : Nat) : Nat :=
  if month = 2 then
    if year % 4 = 0 && (year % 100 != 0 || year % 400 = 0) then 29 else 28
  else if [4, 6, 9, 11].contains month then 30
  else 31

/-- Takes a date off the front. -/
def date : List Char → Option (List Char)
  | y₁ :: y₂ :: y₃ :: y₄ :: '-' :: m₁ :: m₂ :: '-' :: d₁ :: d₂ :: rest => do
      guard ([y₁, y₂, y₃, y₄].all Char.isDigit && isTwoDigits 1 12 m₁ m₂)
      let days := daysIn (← digits? 10 [y₁, y₂, y₃, y₄]) (← digits? 10 [m₁, m₂])
      guard (isTwoDigits 1 days d₁ d₂)
      some rest
  | _ => none

/-- Takes a fraction of a second off the front, if there is one. -/
def secondFraction : List Char → Option (List Char)
  | '.' :: rest =>
      if rest.head?.any Char.isDigit then some (rest.dropWhile Char.isDigit) else none
  | cs => some cs

/-- Takes a time of day off the front, of which the seconds may be left out. -/
def time : List Char → Option (List Char)
  | h₁ :: h₂ :: ':' :: m₁ :: m₂ :: rest => do
      guard (isTwoDigits 0 23 h₁ h₂ && isTwoDigits 0 59 m₁ m₂)
      match rest with
      | ':' :: s₁ :: s₂ :: rest => do
          guard (isTwoDigits 0 60 s₁ s₂)
          secondFraction rest
      | ':' :: _ => none
      | rest => some rest
  | _ => none

/-- A distance from universal time, or nothing. -/
def isOffset : List Char → Bool
  | [] => true
  | [c] => c = 'Z' || c = 'z'
  | [s, h₁, h₂, ':', m₁, m₂] =>
      (s = '+' || s = '-') && isTwoDigits 0 23 h₁ h₂ && isTwoDigits 0 59 m₁ m₂
  | _ => false

/-- A date, a time of day, or both with an offset. -/
def isMoment (cs : List Char) : Bool :=
  time cs = some [] ||
    match date cs with
    | some [] => true
    | some (c :: rest) =>
        (c = 'T' || c = 't' || c = ' ') && (time rest).any isOffset
    | none => false

/-- The value that a word without quotes spells. -/
def bareValue? (word : List Char) : Option Value :=
  if word = "true".toList then some (.flag true)
  else if word = "false".toList then some (.flag false)
  else
    match integer? word with
    | some n => if Text.fits64 n then some (.integer n) else none
    | none => if isFraction word || isMoment word then some .other else none

/-- A character of such a word. -/
def isBareValue (c : Char) : Bool :=
  c.isAlphanum || ['_', '+', '-', '.', ':'].contains c

/-- A value without quotes. A blank may stand between a date and a time. -/
def bareValue : Reader Value := do
  let word ← takeWhile isBareValue
  let rest ← get
  let behind := (rest.drop 1).takeWhile isBareValue
  if rest.head? = some ' ' && date word = some [] && behind.head?.any Char.isDigit then
    set ((rest.drop 1).drop behind.length)
    bareValue? (word ++ ' ' :: behind)
  else bareValue? word

end Codemod.Toml
