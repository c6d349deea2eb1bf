import Mathlib.Logic.Basic

/-!
Regular expressions and the library that compiles them. The library is not part of this project: it is
given by its functions, and what is known of them is what its documentation says. For that the part of
its syntax is read here that names with asterisks are translated to, and its meaning is the parts of a
text that an expression matches, with what stands around them.
-/

namespace Codemod.Pattern

/-- A regular expression. -/
inductive Expression where
  | empty
  | char (c : Char)
  /-- One character other than this one. -/
  | other (c : Char)
  | repeated (e : Expression)
  | optional (e : Expression)
  | append (first second : Expression)
  /-- The place in front of the whole text. -/
  | start
  /-- The place behind the whole text. -/
  | finish
deriving DecidableEq, Repr

/-- The characters that stand for themselves only behind a backslash. -/
def metaCharacters : List Char :=
  [ '\\', '.', '+', '*', '?', '(', ')', '|', '[', ']', '{', '}', '^', '$', '#', '&', '-', '~' ]

/-- A character as it is spelled where it stands for itself. -/
def escaped (c : Char) : List Char :=
  if c ∈ metaCharacters then ['\\', c] else [c]

/-- The characters that have a meaning of their own between brackets. -/
def classCharacters : List Char :=
  ['[', ']', '\\', '^', '-', '&', '~']

namespace Expression

/-- The expressions one behind another. -/
def sequence : List Expression → Expression
  | [] => empty
  | e :: es => append e (sequence es)

/-- A sign behind the expression repeats it or makes it optional: it is a character, or a group. -/
def isUnit : Expression → Bool
  | char _ | other _ | empty | append .. => true
  | repeated _ | optional _ | start | finish => false

/-- A sign of the text of an expression. -/
inductive Sign where
  /-- A character, a class of characters, or a place. -/
  | item (e : Expression)
  | opening
  | closing
  | repeated
  | optional
deriving DecidableEq, Repr

/-- The sign that is one character. -/
def sign? (c : Char) : Option Sign :=
  match c with
  | ')' => some .closing
  | '*' => some .repeated
  | '?' => some .optional
  | '^' => some (.item start)
  | '$' => some (.item finish)
  | c => if c ∈ metaCharacters then none else some (.item (char c))

/-- The signs of a text: a character behind a backslash, a class of all characters but one, and the
beginning of a group without a number are one sign each. -/
def signs : List Char → Option (List Sign)
  | [] => some []
  | '\\' :: c :: rest =>
      if c ∈ metaCharacters then (signs rest).map (.item (char c) :: ·) else none
  | '[' :: '^' :: c :: ']' :: rest =>
      if c ∈ classCharacters then none else (signs rest).map (.item (other c) :: ·)
  | '(' :: '?' :: ':' :: rest => (signs rest).map (.opening :: ·)
  | c :: rest => (sign? c).bind fun sign => (signs rest).map (sign :: ·)

/-- What the signs are put together to, behind `items`, of which the last comes first, in groups of which
the innermost comes first. -/
def assemble : List Sign → List Expression → List (List Expression) → Option Expression
  | [], items, [] => some (sequence items.reverse)
  | .item e :: signs, items, groups => assemble signs (e :: items) groups
  | .opening :: signs, items, groups => assemble signs [] (items :: groups)
  | .closing :: signs, items, outer :: groups =>
      assemble signs (sequence items.reverse :: outer) groups
  | .repeated :: signs, e :: items, groups =>
      if e.isUnit then assemble signs (repeated e :: items) groups else none
  | .optional :: signs, e :: items, groups =>
      if e.isUnit then assemble signs (optional e :: items) groups else none
  | _, _, _ => none

/-- The expression that a text spells, as far as only these signs are in it. -/
def read (text : List Char) : Option Expression :=
  (signs text).bind fun signs => assemble signs [] []

/-- The expression matches a part of a text, between what stands in front of it and behind it. -/
inductive Matches : Expression → List Char → List Char → List Char → Prop where
  | empty (front behind : List Char) : Matches .empty front [] behind
  | char (c : Char) (front behind : List Char) : Matches (.char c) front [c] behind
  | other {c d : Char} (h : d ≠ c) (front behind : List Char) : Matches (.other c) front [d] behind
  | none (e : Expression) (front behind : List Char) : Matches (.repeated e) front [] behind
  | more {e : Expression} {front first others behind : List Char}
      (h : Matches e front first (others ++ behind))
      (hmore : Matches (.repeated e) (front ++ first) others behind) :
      Matches (.repeated e) front (first ++ others) behind
  | without (e : Expression) (front behind : List Char) : Matches (.optional e) front [] behind
  | present {e : Expression} {front part behind : List Char} (h : Matches e front part behind) :
      Matches (.optional e) front part behind
  | append {e e' : Expression} {front first second behind : List Char}
      (h : Matches e front first (second ++ behind)) (h' : Matches e' (front ++ first) second behind) :
      Matches (.append e e') front (first ++ second) behind
  | start (behind : List Char) : Matches .start [] [] behind
  | finish (front : List Char) : Matches .finish front [] []

/-- The expression matches some part of the text. -/
def Finds (e : Expression) (text : List Char) : Prop :=
  ∃ front part behind, text = front ++ part ++ behind ∧ e.Matches front part behind

end Expression

/-- Why the library does not compile a text. -/
inductive ExpressionError where
  | malformed (message : String)
  /-- What the expression is compiled to would be larger than the library allows. -/
  | tooBig (limit : Nat)
deriving DecidableEq, Repr

/-- A library of regular expressions, which it compiles to values of its own. -/
structure Library (ρ : Type) where
  /-- A text that spells the characters one behind another. -/
  escape : List Char → List Char
  compile : List Char → Except ExpressionError ρ
  /-- The expression is found somewhere in a text. -/
  isMatch : ρ → List Char → Bool
  describe : ExpressionError → String

/-- What the documentation of the library says. -/
structure Library.Documented {ρ : Type} (library : Library ρ) : Prop where
  /-- A backslash is put in front of each character that would not stand for itself. -/
  escape_eq (text : List Char) :
    library.escape text = text.flatMap escaped
  /-- An expression that is spelled by the rules is refused for its size only. -/
  tooBig_of_read {text : List Char} {e : Expression} (h : Expression.read text = some e)
    {error : ExpressionError} (herror : library.compile text = .error error) :
    ∃ limit, error = .tooBig limit
  /-- A compiled expression is found where the expression matches a part of the text. -/
  isMatch_iff {text : List Char} {e : Expression} (h : Expression.read text = some e) {compiled : ρ}
    (hcompiled : library.compile text = .ok compiled) (name : List Char) :
    library.isMatch compiled name = true ↔ e.Finds name

end Codemod.Pattern
