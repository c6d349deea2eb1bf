import Codemod.Pattern.Method
import Codemod.Yaml.KeyPath

/-!
The options of a recipe: their values, what is asked of a value, and what can be wrong with it.
-/

namespace Codemod.Recipe

/-- The value of an option. -/
inductive OptionValue where
  | flag (value : Bool)
  | number (value : Int)
  | text (value : String)
deriving DecidableEq, Repr

/-- The value as it is written. -/
def OptionValue.display : OptionValue → String
  | flag true => "true"
  | flag false => "false"
  | number value => toString value
  | text value => value

/-- The value of an option that is a text. -/
def OptionValue.text? : OptionValue → Option String
  | text value => some value
  | _ => none

/-- What is asked of the value of an option. -/
inductive Constraint where
  | any
  | boolean
  | nonEmptyText
  | methodPattern
  | keyPath
  | javaIdentifier
deriving DecidableEq, Repr

/-- What is wrong with an option. -/
inductive OptionFault where
  | required
  | notBoolean (value : OptionValue)
  | notText (value : OptionValue)
  | empty
  | pattern (error : Pattern.PatternError)
  | path (error : Yaml.PathError)
  | identifier (text : String)
deriving DecidableEq, Repr

/-- The words for what is wrong with an option. -/
def OptionFault.message : OptionFault → String
  | required => "is required"
  | notBoolean value => "expected true or false, found '" ++ value.display ++ "'"
  | notText value => "expected text, found '" ++ value.display ++ "'"
  | empty => "must not be empty"
  | pattern error => error.message
  | path error => error.message
  | identifier text => "'" ++ text ++ "' is not a valid Java identifier"

/-- The text is a name that Java code can declare. -/
def isJavaIdentifier (text : String) : Bool :=
  match text.toList with
  | [] => false
  | c :: rest =>
      Java.startsWord c && rest.all Java.continuesWord && !Java.isKeyword text

/-- What is wrong with a text under a constraint. -/
def Constraint.checkText (constraint : Constraint) (text : String) : Option OptionFault :=
  match constraint with
  | any | boolean => none
  | nonEmptyText => if (Text.trimmed text.toList).isEmpty then some .empty else none
  | methodPattern =>
      match Pattern.MethodPattern.parse text with
      | .ok _ => none
      | .error e => some (.pattern e)
  | keyPath =>
      match Yaml.KeyPath.parse text with
      | .ok _ => none
      | .error e => some (.path e)
  | javaIdentifier => if isJavaIdentifier text then none else some (.identifier text)

/-- What is wrong with a value under a constraint. -/
def Constraint.check : Constraint → OptionValue → Option OptionFault
  | any, _ | boolean, .flag _ => none
  | boolean, value => some (.notBoolean value)
  | constraint, .text text => constraint.checkText text
  | _, value => some (.notText value)

/-- An option of a recipe and its value. -/
structure RecipeOption where
  name : String
  required : Bool
  value? : Option OptionValue
  constraint : Constraint
deriving DecidableEq, Repr

/-- What is wrong with an option's value, or with its absence. -/
def RecipeOption.check (option : RecipeOption) : Option OptionFault :=
  match option.value? with
  | some value => option.constraint.check value
  | none => if option.required then some .required else none

end Codemod.Recipe
