/-!
Why a text is no compilation unit, and the wording of each cause.
-/

namespace Codemod.Java

/-- What begins and does not end. -/
inductive Unended where
  | comment
  | stringLiteral
  | characterLiteral
deriving DecidableEq, Repr

/-- What the grammar asks for at a place. -/
inductive Wanted where
  /-- A certain sign or keyword. -/
  | sign (text : String)
  | identifier
  | typeKeyword
  | handler
  | memberName
  | expression
deriving DecidableEq, Repr

/-- A construct of the language that is recognised and not supported. -/
inductive Construct where
  | textBlock
  | annotationType
  | recordType
  | annotationDefault
  | statement (keyword : String)
  | labeledStatement
  | lambda
  | methodReference
  | qualifiedCreation
deriving DecidableEq, Repr

/-- Why a text cannot be parsed, with the byte offset of the place. -/
inductive ParseError where
  | unterminated (what : Unended) (offset : Nat)
  | unexpectedChar (char : Char) (offset : Nat)
  /-- What was found is the text of a token, or none at the end. -/
  | expected (wanted : Wanted) (found : Option String) (offset : Nat)
  | unsupported (construct : Construct) (offset : Nat)
  /-- The bound on nested or repeated constructs was reached, which takes more of them than
  there are tokens. -/
  | stalled (offset : Nat)
deriving DecidableEq, Repr

/-- The words for what begins and does not end. -/
def Unended.describe : Unended → String
  | comment => "comment"
  | stringLiteral => "string literal"
  | characterLiteral => "character literal"

/-- The words for what the grammar asks for. -/
def Wanted.describe : Wanted → String
  | sign text => "'" ++ text ++ "'"
  | identifier => "identifier"
  | typeKeyword => "class, interface or enum"
  | handler => "'catch' or 'finally'"
  | memberName => "member name"
  | expression => "expression"

/-- The words for an unsupported construct. -/
def Construct.describe : Construct → String
  | textBlock => "text block"
  | annotationType => "annotation type declaration"
  | recordType => "record"
  | annotationDefault => "annotation member default"
  | statement keyword => keyword ++ " statement"
  | labeledStatement => "labeled statement"
  | lambda => "lambda"
  | methodReference => "method reference"
  | qualifiedCreation => "qualified creation or explicit type arguments"

namespace ParseError

/-- The byte offset of the place. -/
def offset : ParseError → Nat
  | unterminated _ offset | unexpectedChar _ offset | expected _ _ offset
  | unsupported _ offset | stalled offset => offset

/-- The error in words. -/
def message : ParseError → String
  | unterminated what offset =>
      "unterminated " ++ what.describe ++ " starting at byte " ++ toString offset
  | unexpectedChar char offset =>
      "unexpected character '" ++ String.singleton char ++ "' at byte " ++ toString offset
  | expected wanted found offset =>
      "expected " ++ wanted.describe ++ " at byte " ++ toString offset ++ ", found '"
        ++ found.getD "end of input" ++ "'"
  | unsupported construct offset =>
      "unsupported construct '" ++ construct.describe ++ "' at byte " ++ toString offset
  | stalled offset => "no progress at byte " ++ toString offset

end ParseError

end Codemod.Java
