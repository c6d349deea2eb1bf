import Codemod.Java.Grammar.Declaration

/-!
Compilation units: the constructs of the grammar with each other inside them.
-/

namespace Codemod.Java

open Codemod.Tree

namespace Grammar

/-- Each construct, with `g` for those inside it. -/
def production (g : Grammar) : Grammar
  | .type => g.typeTree true
  | .expression => g.expression
  | .unary => g.unary
  | .arrayInit => g.arrayInit
  | .statement => g.statement
  | .member => g.typeMember

/-- The constructs with at most `depth` of them inside each other. -/
def nested : Nat → Grammar
  | 0 => fun _ => Parser.fail .stalled
  | depth + 1 => production (nested depth)

end Grammar

/-- The tree of tokenized text. A construct takes a token before it comes to one inside it,
so that none is nested deeper than there are tokens. -/
def parseTokens (tokens : Tokens) : Except ParseError Node := do
  let (unit, _) ← (Grammar.compilationUnit (Grammar.nested (tokens.ahead.length + 1))).run tokens
  return unit

/-- The tree of a compilation unit. -/
def parseUnit (source : String) : Except ParseError Node := do
  parseTokens (← tokenize source)

end Codemod.Java
