import Codemod.Java.Token.Basic
import Codemod.Text.Blank
import Codemod.Text.Split

/-!
Patterns that select methods by the class that declares them, by name and by parameters, such
as `com.abc.B *(String, ..)`. The type that a method returns has no part in them. Names are globs: an
asterisk stands for any run of characters other than a dot, and every other character for itself.
-/

namespace Codemod.Pattern

open Codemod.Tree

/-! ### Globs -/

/-- The test holds of what is left behind some run of characters other than a dot. -/
def behindRun (p : List Char → Bool) : List Char → Bool
  | [] => p []
  | c :: rest => p (c :: rest) || c != '.' && behindRun p rest

/-- The whole name matches the glob. -/
def globMatches : List Char → List Char → Bool
  | [], name => name.isEmpty
  | g :: glob, name =>
      if g = '*' then behindRun (globMatches glob) name
      else
        match name with
        | [] => false
        | c :: rest => g = c && globMatches glob rest

/-! ### Patterns -/

/-- What is wrong with a method pattern. -/
inductive PatternFault where
  | noOpening
  | noClosing
  | noName
  | emptySegment
  | dotInName
  | emptyParameter
  | ellipsisNotLast
  | unbalanced
  | invalidType (text : String)
deriving DecidableEq, Repr

/-- The words for what is wrong with a method pattern. -/
def PatternFault.describe : PatternFault → String
  | noOpening => "missing '('"
  | noClosing => "missing ')' at end of pattern"
  | noName => "expected '<owner> <name>(...)'"
  | emptySegment => "empty segment in owner type"
  | dotInName => "method name cannot contain '.'"
  | emptyParameter => "empty parameter"
  | ellipsisNotLast => "'...' is only allowed on the last parameter"
  | unbalanced => "unbalanced type arguments"
  | invalidType text => "invalid parameter type '" ++ text ++ "'"

/-- A text that is no method pattern, and why. -/
structure PatternError where
  pattern : String
  fault : PatternFault
deriving DecidableEq, Repr

/-- The error in words. -/
def PatternError.message (e : PatternError) : String :=
  "invalid method pattern '" ++ e.pattern ++ "': " ++ e.fault.describe

/-- A pattern for parameters. -/
inductive ParameterPattern where
  /-- Any number of parameters. -/
  | anyRun
  /-- One parameter of any type. -/
  | anyOne
  /-- One parameter: an array of that many dimensions over a type whose name matches. -/
  | type (element : List Char) (dimensions : Nat)
deriving DecidableEq, Repr

/-- A pattern for methods. -/
structure MethodPattern where
  source : String
  owner : List Char
  name : List Char
  parameters : List ParameterPattern
deriving DecidableEq, Repr

/-- The part of the list in front of an ending, if the list ends so. -/
def withoutEnding? (ending cs : List Char) : Option (List Char) :=
  if ending.isSuffixOf cs then some (cs.take (cs.length - ending.length)) else none

/-- Takes pairs of brackets from the end, at most `limit` of them, and counts them. -/
def withoutBrackets : Nat → List Char → List Char × Nat
  | 0, cs => (cs, 0)
  | limit + 1, cs =>
      match withoutEnding? ['[', ']'] cs with
      | some front =>
          let (element, n) := withoutBrackets limit (Text.trimRight front)
          (element, n + 1)
      | none => (cs, 0)

/-- The raw type of a type with arguments. -/
def rawType (element : List Char) : Except PatternFault (List Char) :=
  if element.contains '<' then
    if element.getLast? == some '>' then
      .ok (Text.trimRight (element.takeWhile (· != '<')))
    else .error .unbalanced
  else if element.contains '>' then .error .unbalanced
  else .ok element

/-- Two dots stand next to each other. -/
def hasEmptySegment : List Char → Bool
  | '.' :: '.' :: _ => true
  | _ :: rest => hasEmptySegment rest
  | [] => false

/-- The characters name an element type. -/
def isElementType (element : List Char) : Bool :=
  !element.isEmpty && !element.any Text.isBlank && !hasEmptySegment element
    && !element.contains '[' && !element.contains ']'

/-- The pattern for one type; only the last parameter may end in an ellipsis, which stands
for brackets. -/
def typePattern (isLast : Bool) (text : List Char) : Except PatternFault ParameterPattern := do
  let front := withoutEnding? ['.', '.', '.'] text
  let text := (front.map Text.trimRight).getD text
  if front.isSome && !isLast then .error .ellipsisNotLast
  else
    let (element, brackets) := withoutBrackets text.length text
    let element ← rawType element
    if isElementType element then
      .ok (.type element (brackets + if front.isSome then 1 else 0))
    else .error (.invalidType (String.ofList text))

/-- The pattern for one parameter. -/
def parameterPattern (isLast : Bool) (text : List Char) :
    Except PatternFault ParameterPattern :=
  match text with
  | [] => .error .emptyParameter
  | ['.', '.'] => .ok .anyRun
  | ['*'] => .ok .anyOne
  | _ => typePattern isLast text

/-- The patterns for parameters, of which the first fault is reported. -/
def parameterPatterns : List (List Char) → Except PatternFault (List ParameterPattern)
  | [] => .ok []
  | text :: rest => do
      let first ← parameterPattern rest.isEmpty (Text.trimmed text)
      let others ← parameterPatterns rest
      .ok (first :: others)

/-- The patterns of a parameter list. -/
def parameterList (text : List Char) : Except PatternFault (List ParameterPattern) :=
  if (Text.trimmed text).isEmpty then .ok []
  else parameterPatterns (Text.splitOn ',' (Text.trimmed text))

/-- The globs of the owner and the name in front of a parameter list. -/
def ownerAndName (head : List Char) : Except PatternFault (List Char × List Char) :=
  let owner := head.takeWhile fun c => !Text.isBlank c
  let name := Text.trimmed (head.drop owner.length)
  if owner.isEmpty || name.isEmpty || name.any Text.isBlank then .error .noName
  else if hasEmptySegment owner || owner.head? == some '.' || owner.getLast? == some '.' then
    .error .emptySegment
  else if name.contains '.' then .error .dotInName
  else .ok (owner, name)

namespace MethodPattern

/-- The pattern that a text spells, or what is wrong with it. -/
def parse? (pattern : String) : Except PatternFault MethodPattern :=
  let text := Text.trimmed pattern.toList
  match Text.splitFirst '(' text with
  | none => .error .noOpening
  | some (head, list) =>
      if list.getLast? != some ')' then .error .noClosing
      else do
        let (owner, name) ← ownerAndName (Text.trimmed head)
        let parameters ← parameterList list.dropLast
        .ok { source := pattern, owner, name, parameters }

/-- The pattern that a text spells. -/
def parse (pattern : String) : Except PatternError MethodPattern :=
  (parse? pattern).mapError fun fault => ⟨pattern, fault⟩

end MethodPattern

/-- The package of the classes that need no import. -/
def implicitPackage : List Char :=
  "java.lang.".toList

/-- A type name matches the pattern of an element. A pattern without dots that is no
primitive also stands for the class of the implicit package. -/
def elementMatches (element : List Char) (name : String) : Bool :=
  globMatches element name.toList
    || !element.contains '.' && !Java.primitives.contains (String.ofList element)
      && globMatches (implicitPackage ++ element) name.toList

/-- One parameter matches the pattern. -/
def ParameterPattern.accepts : ParameterPattern → Java.TypeRef → Bool
  | .anyRun, _ | .anyOne, _ => true
  | .type element dimensions, actual =>
      actual.arrayParts.2 == dimensions &&
        match actual.arrayParts.1 with
        | .primitive name | .named name => elementMatches element name
        | .array _ | .unknown => false

/-- The test holds of what is left behind some of the elements. -/
def behindSome {α : Type} (p : List α → Bool) : List α → Bool
  | [] => p []
  | a :: rest => p (a :: rest) || behindSome p rest

/-- The parameters match the patterns. -/
def parametersMatch : List ParameterPattern → List Java.TypeRef → Bool
  | [], types => types.isEmpty
  | .anyRun :: patterns, types => behindSome (parametersMatch patterns) types
  | pattern :: patterns, type :: types => pattern.accepts type && parametersMatch patterns types
  | _ :: _, [] => false

namespace MethodPattern

/-- The class name matches the pattern's owner. -/
def selectsOwner (pattern : MethodPattern) (type : String) : Bool :=
  globMatches pattern.owner type.toList

/-- The method name matches the pattern's name. -/
def selectsName (pattern : MethodPattern) (name : String) : Bool :=
  globMatches pattern.name name.toList

/-- The pattern selects the method. -/
def selects (pattern : MethodPattern) (method : Java.Signature) : Bool :=
  pattern.selectsOwner method.declaringType && pattern.selectsName method.name
    && parametersMatch pattern.parameters method.parameters

/-- The pattern selects the method that attribution attached to a node. -/
def selectsNode (pattern : MethodPattern) (n : Node) : Bool :=
  (n.type?.bind Java.TypeInfo.method?).any pattern.selects

end MethodPattern

end Codemod.Pattern
