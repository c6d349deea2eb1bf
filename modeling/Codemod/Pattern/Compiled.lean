import Codemod.Pattern.Expression
import Codemod.Pattern.Method

/-!
Method patterns as a library of regular expressions compiles them. The class, the method and each element
type become an expression that is anchored at both ends, in which an asterisk stands for any run of
characters other than a dot. The patterns of globs are what these stand for.
-/

namespace Codemod.Pattern

/-- Why a text is not compiled to a pattern. -/
inductive CompileFault where
  | malformed (fault : PatternFault)
  | wildcard (error : ExpressionError)
deriving DecidableEq, Repr

/-- A text that is not compiled to a pattern, and why. -/
structure CompileError where
  pattern : String
  fault : CompileFault
deriving DecidableEq, Repr

/-- A compiled pattern for parameters. -/
inductive CompiledParameter (ρ : Type) where
  | anyRun
  | anyOne
  | type (element : ρ) (dimensions : Nat)
deriving DecidableEq, Repr

/-- A compiled pattern for methods. -/
structure CompiledPattern (ρ : Type) where
  source : String
  owner : ρ
  name : ρ
  parameters : List (CompiledParameter ρ)
deriving DecidableEq, Repr

/-- The expression for what an asterisk stands for. -/
def runText : List Char :=
  ['[', '^', '.', ']', '*']

/-- The expression for the implicit package, which may be left out. -/
def packageText : List Char :=
  "(?:java\\.lang\\.)?".toList

/-- The implicit package may stand in front of a name that is spelled like this: it has no dot, and is that
of no primitive type. -/
def isImplicit (text : List Char) : Bool :=
  !text.contains '.' && !Java.primitives.contains (String.ofList text)

namespace Library

variable {ρ : Type} (library : Library ρ)

/-- The error in words. -/
def message (e : CompileError) : String :=
  match e.fault with
  | .malformed fault => PatternError.message ⟨e.pattern, fault⟩
  | .wildcard error =>
      "invalid wildcard in method pattern '" ++ e.pattern ++ "': " ++ library.describe error

/-- The expression for a name with asterisks. -/
def bodyText (text : List Char) : List Char :=
  runText.intercalate ((Text.splitOn '*' text).map library.escape)

/-- The expression for a whole name with asterisks; in front of the name of an element type the implicit
package may be left out. -/
def wildcardText (text : List Char) (isElement : Bool) : List Char :=
  if isElement && isImplicit text then '^' :: packageText ++ library.bodyText text ++ ['$']
  else '^' :: library.bodyText text ++ ['$']

/-- Compiles a name with asterisks. -/
def wildcard (text : List Char) (isElement : Bool) : Except CompileFault ρ :=
  (library.compile (library.wildcardText text isElement)).mapError .wildcard

/-- Compiles the pattern of a parameter. -/
def compileParameter : ParameterPattern → Except CompileFault (CompiledParameter ρ)
  | .anyRun => .ok .anyRun
  | .anyOne => .ok .anyOne
  | .type element dimensions => do
      let element ← library.wildcard element true
      .ok (.type element dimensions)

/-- The compiled patterns for parameters, of which the first fault is reported. -/
def parameterPatterns : List (List Char) → Except CompileFault (List (CompiledParameter ρ))
  | [] => .ok []
  | text :: rest => do
      let first ← (parameterPattern rest.isEmpty (Text.trimmed text)).mapError .malformed
      let first ← library.compileParameter first
      let others ← parameterPatterns rest
      .ok (first :: others)

/-- The compiled patterns of a parameter list. -/
def parameterList (text : List Char) : Except CompileFault (List (CompiledParameter ρ)) :=
  if (Text.trimmed text).isEmpty then .ok []
  else library.parameterPatterns (Text.splitOn ',' (Text.trimmed text))

/-- The compiled pattern that a text spells, or why it is not compiled. The parameters come before the
class and the method. -/
def compilePattern? (pattern : String) : Except CompileFault (CompiledPattern ρ) :=
  let text := Text.trimmed pattern.toList
  match Text.splitFirst '(' text with
  | none => .error (.malformed .noOpening)
  | some (head, list) =>
      if list.getLast? != some ')' then .error (.malformed .noClosing)
      else do
        let (owner, name) ← (ownerAndName (Text.trimmed head)).mapError .malformed
        let parameters ← library.parameterList list.dropLast
        let owner ← library.wildcard owner false
        let name ← library.wildcard name false
        .ok { source := pattern, owner, name, parameters }

/-- The compiled pattern that a text spells. -/
def compilePattern (pattern : String) : Except CompileError (CompiledPattern ρ) :=
  (library.compilePattern? pattern).mapError fun fault => ⟨pattern, fault⟩

/-- One parameter matches the compiled pattern. -/
def accepts : CompiledParameter ρ → Java.TypeRef → Bool
  | .anyRun, _ | .anyOne, _ => true
  | .type element dimensions, actual =>
      actual.arrayParts.2 == dimensions &&
        match actual.arrayParts.1 with
        | .primitive name | .named name => library.isMatch element name.toList
        | .array _ | .unknown => false

/-- The parameters match the compiled patterns. -/
def parametersMatch : List (CompiledParameter ρ) → List Java.TypeRef → Bool
  | [], types => types.isEmpty
  | .anyRun :: patterns, types => behindSome (parametersMatch patterns) types
  | pattern :: patterns, type :: types =>
      library.accepts pattern type && parametersMatch patterns types
  | _ :: _, [] => false

/-- The compiled pattern selects the method. -/
def selects (pattern : CompiledPattern ρ) (method : Java.Signature) : Bool :=
  library.isMatch pattern.owner method.declaringType.toList
    && library.isMatch pattern.name method.name.toList
    && library.parametersMatch pattern.parameters method.parameters

end Library

end Codemod.Pattern
