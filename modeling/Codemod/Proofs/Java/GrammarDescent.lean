import Codemod.Proofs.Java.Descent
import Codemod.Proofs.Java.Units
import Mathlib.Logic.Function.Iterate

/-!
Parsing comes to an end. Each production takes a token before it comes to a construct inside it, on
tries as well, and each round of its loops takes one or is the last. So constructs stand inside each
other no deeper than there are tokens, no bound on loops and nesting is ever reached, and every token
of a text is in the tree once.
-/

namespace Codemod.Java

open Codemod.Tree

namespace Grammar

open Codemod.Java.Parser

variable {n : Nat} {b : Bool}

theorem descends_sees (text : String) (k : Nat) : Descends n false (sees text k) (sees text k) :=
  descends_test

theorem descends_take (text : String) : Descends n b (tok (take text)) (tok (take text)) :=
  descends_takeIf.tok

theorem descends_takeIdentifier : Descends n b (tok takeIdentifier) (tok takeIdentifier) :=
  descends_takeIf.tok

theorem descends_nil :
    Descends n false (pure [] : Parser (List Element)) (pure []) :=
  runs_pure rfl

/-! ### Names and types -/

theorem descends_dotThen {p : Token → Bool} : Descends n false (dotThen p) (dotThen p) :=
  (descends_sees "." 0).cond descends_test (runs_pure rfl)

theorem descends_furtherName :
    Descends (n + 1) b (parts [tok (take "."), tok takeIdentifier])
      (parts [tok (take "."), tok takeIdentifier]) :=
  (DescendsAll.moved (descends_take ".") (.cons descends_takeIdentifier .nil)).parts

theorem descends_furtherNames : Descends (n + 1) false furtherNames furtherNames :=
  descends_dotThen.many descends_furtherName

theorem descends_qualifiedName (allowStar : Bool) :
    Descends (n + 1) b (qualifiedName allowStar) (qualifiedName allowStar) := by
  refine (DescendsAll.moved descends_takeIdentifier
    (.cons descends_furtherNames.mono (.cons ?_ .nil))).build _
  exact Runs.ite (descends_dotThen.optional
    (DescendsAll.cons (descends_take ".") (.cons (descends_take "*") .nil)).parts) descends_nil

theorem descends_emptyBrackets : Descends n false emptyBrackets emptyBrackets :=
  (descends_sees "[" 0).cond (descends_sees "]" 1) (runs_pure rfl)

theorem descends_brackets :
    Descends (n + 1) b (parts [tok (take "["), tok (take "]")])
      (parts [tok (take "["), tok (take "]")]) :=
  (DescendsAll.moved (descends_take "[") (.cons (descends_take "]") .nil)).parts

section
variable {k : Kind} {opening closing : String} {delimiter : Delimiter} {item item' : Parser Node}

theorem descends_items {stop stop' : Parser Bool} (hstop : Descends n false stop stop')
    (hitem : Descends n false item item') :
    Descends n false
      (do
        let items ← separated delimiter stop item
        return items.map Element.node)
      (do
        let items ← separated delimiter stop' item'
        return items.map Element.node) :=
  (hstop.separated hitem).then_pure fun items => items.map Element.node

theorem descends_delimited (hitem : Descends n false item item') :
    Descends (n + 1) b (delimited k opening closing delimiter item)
      (delimited k opening closing delimiter item') :=
  (DescendsAll.moved (descends_take opening)
    (.cons (descends_items (descends_sees closing 0) hitem)
      (.cons (descends_take closing) .nil))).build k

theorem descends_commaList (hitem : Descends n false item item') :
    Descends n false (commaList item) (commaList item') :=
  descends_items (runs_pure rfl) hitem

end

section
variable {g g' : Grammar} (hg : ∀ s {b}, Descends n b (g s) (g' s))
include hg

theorem descends_wildcard : Descends (n + 1) b (wildcard g) (wildcard g') := by
  refine (DescendsAll.moved (descends_take "?") (.cons ?_ .nil)).build _
  exact descends_test.optional
    (DescendsAll.cons descends_takeIf.tok (.cons (hg .type).one .nil)).parts

theorem descends_typeArguments : Descends (n + 1) b (typeArguments g) (typeArguments g') :=
  descends_delimited (hg .type)

theorem descends_elementType : Descends (n + 1) b (elementType g) (elementType g') :=
  descends_test.cond descends_takeIf.tok
    (DescendsAll.moved descends_takeIdentifier (.cons descends_furtherNames.mono
      (.cons ((descends_sees "<" 0).optional (descends_typeArguments hg).mono.one) .nil))).parts

theorem descends_typeTree (dimensions : Bool) :
    Descends (n + 1) b (typeTree g dimensions) (typeTree g' dimensions) := by
  refine (descends_sees "?" 0).cond (descends_wildcard hg) ?_
  refine (DescendsAll.moved (descends_elementType hg) (.cons ?_ .nil)).build _
  exact Runs.ite (descends_emptyBrackets.many descends_brackets).mono descends_nil

theorem descends_typeList (k : Kind) (keyword : String) :
    Descends (n + 1) b (typeList g k keyword) (typeList g' k keyword) :=
  (DescendsAll.moved (descends_take keyword) (.cons (descends_commaList (hg .type)) .nil)).build k

theorem descends_bound :
    Descends (n + 1) b (parts [tok (take "&"), one (g .type)])
      (parts [tok (take "&"), one (g' .type)]) :=
  (DescendsAll.moved (descends_take "&") (.cons (hg .type).one .nil)).parts

theorem descends_typeParameter : Descends (n + 1) b (typeParameter g) (typeParameter g') := by
  refine (DescendsAll.moved descends_takeIdentifier (.cons ?_ .nil)).build _
  refine (descends_sees "extends" 0).optional (DescendsAll.parts ?_)
  exact .cons (descends_take "extends") (.cons (hg .type).one
    (.cons ((descends_sees "&" 0).many (descends_bound hg).mono) .nil))

theorem descends_typeParameters : Descends (n + 1) b (typeParameters g) (typeParameters g') :=
  descends_delimited (descends_typeParameter hg).mono

/-! ### Expressions -/

omit hg in
theorem descends_binaryOperator : Descends (n + 1) b binaryOperator binaryOperator := by
  refine (descends_sees ">" 0).cond (DescendsAll.parts ?_) descends_takeIf.tok
  exact .moved (descends_take ">") (.cons (descends_test.many (descends_take ">"))
    (.cons (descends_test.optional (descends_take ">=")) .nil))

theorem descends_arguments : Descends (n + 1) b (arguments g) (arguments g') :=
  descends_delimited (hg .expression)

theorem descends_parenthesized : Descends (n + 1) b (parenthesized g) (parenthesized g') :=
  (DescendsAll.moved (descends_take "(")
    (.cons (hg .expression).one (.cons (descends_take ")") .nil))).build _

theorem descends_value :
    Descends n b (do if ← sees openBrace then g .arrayInit else g .expression)
      (do if ← sees openBrace then g' .arrayInit else g' .expression) :=
  (descends_sees openBrace 0).cond (hg .arrayInit) (hg .expression)

theorem descends_arrayInit : Descends (n + 1) b (arrayInit g) (arrayInit g') :=
  descends_delimited (descends_value hg)

theorem descends_dimension (sized : Bool) :
    Descends (n + 1) b (dimension g sized) (dimension g' sized) := by
  refine (DescendsAll.moved (descends_take "[")
    (.cons ?_ (.cons (descends_take "]") .nil))).build _
  exact Runs.ite ((descends_sees "]" 0).not.optional (hg .expression).one) descends_nil

theorem descends_classBody : Descends (n + 1) b (classBody g) (classBody g') :=
  (DescendsAll.moved (descends_take openBrace)
    (.cons ((descends_sees closeBrace 0).not.many (hg .member).one)
      (.cons (descends_take closeBrace) .nil))).build _

theorem descends_creation : Descends (n + 1) b (creation g) (creation g') := by
  have hstart : Descends (n + 1) true (parts [tok (take "new"), one (typeTree g false)])
      (parts [tok (take "new"), one (typeTree g' false)]) :=
    (DescendsAll.moved (descends_take "new")
      (.cons (descends_typeTree hg false).mono.one .nil)).parts
  refine Runs.bind_moved hstart fun start => ?_
  refine (descends_sees "[" 0).cond (DescendsAll.build ?_ _) (DescendsAll.build ?_ _)
  · exact .cons (runs_pure rfl)
      (.cons ((descends_sees "[" 0).many (descends_dimension hg true).mono.one)
        (.cons ((descends_sees openBrace 0).optional (descends_arrayInit hg).mono.one) .nil))
  · exact .cons (runs_pure rfl) (.cons (descends_arguments hg).mono.one
      (.cons ((descends_sees openBrace 0).optional (descends_classBody hg).mono.one) .nil))

theorem descends_nameOrCall : Descends (n + 1) b (nameOrCall g) (nameOrCall g') :=
  (descends_sees "(" 1).cond
    ((DescendsAll.moved descends_takeIf.tok (.cons (descends_arguments hg).mono.one .nil)).build _)
    ((DescendsAll.moved descends_takeIf.tok .nil).build _)

theorem descends_primary : Descends (n + 1) b (primary g) (primary g') :=
  descends_test.cond ((DescendsAll.moved descends_takeIf.tok .nil).build _) <|
  descends_test.cond (descends_nameOrCall hg) <|
  (descends_sees "new" 0).cond (descends_creation hg) <|
  descends_test.cond (descends_typeTree hg true) <|
  (descends_sees "(" 0).cond (descends_parenthesized hg) <|
  (descends_sees openBrace 0).cond (descends_arrayInit hg) runs_expected

theorem descends_member (operand : Node) :
    Descends (n + 1) b (member g operand) (member g' operand) := by
  refine Runs.bind_moved descends_takeIf fun dot => ?_
  exact descends_test.cond runs_unsupported <|
    (descends_sees "(" 1).cond
      ((DescendsAll.cons (runs_pure rfl)
        (.cons descends_takeIf.tok (.cons (descends_arguments hg).mono.one .nil))).build _)
      ((DescendsAll.cons (runs_pure rfl) (.cons descends_takeIf.tok .nil)).build _)

theorem rounds_postfixStep (operand : Node) :
    Rounds (n + 1) (postfixStep g operand) (postfixStep g' operand) :=
  (descends_sees "->" 0).cond runs_unsupported <|
  (descends_sees "::" 0).cond runs_unsupported <|
  (descends_sees "." 0).cond ((descends_member hg operand).round fun x => (x, true)) <|
  (descends_sees "[" 0).cond
    (((DescendsAll.cons (runs_pure rfl) (.moved (descends_take "[")
      (.cons (hg .expression).one (.cons (descends_take "]") .nil)))).build _).round
      fun x => (x, true)) <|
  descends_test.cond
    (((DescendsAll.cons (runs_pure rfl) (.moved descends_takeIf.tok .nil)).build _).round
      fun x => (x, true))
    (runs_pure rfl)

theorem descends_castAhead : Descends (n + 1) false (castAhead g) (castAhead g') := by
  refine Runs.foresee (m := fun _ => false) (Runs.bind_moved descends_takeIf fun _ => ?_)
  refine Runs.bind descends_test fun primitive => ?_
  refine Runs.bind (descends_typeTree hg true).mono fun _ => ?_
  exact Runs.bind descends_takeIf fun _ => Runs.ite (runs_pure rfl) descends_test

theorem descends_unary : Descends (n + 1) b (unary g) (unary g') := by
  refine descends_test.cond (DescendsAll.build ?_ _)
    ((descends_castAhead hg).cond (DescendsAll.build ?_ _) ?_)
  · exact .moved descends_takeIf.tok (.cons (hg .unary).one .nil)
  · exact .moved (descends_take "(") (.cons (hg .type).one
      (.cons (descends_take ")") (.cons (hg .unary).one .nil)))
  · exact Runs.bind_moved (descends_primary hg)
      (descends_iterate fun operand => (rounds_postfixStep hg operand).mono)

theorem rounds_operatorStep (left : Node) :
    Rounds (n + 1) (operatorStep g left) (operatorStep g' left) := by
  refine (descends_sees "?" 0).cond (Runs.bind (DescendsAll.build ?_ _) fun _ => runs_pure rfl)
    ((descends_sees "instanceof" 0).cond ((DescendsAll.build ?_ _).round fun x => (x, true))
      (descends_test.cond ((DescendsAll.build ?_ _).round fun x => (x, true)) (runs_pure rfl)))
  · exact .cons (runs_pure rfl) (.moved (descends_take "?") (.cons (hg .expression).one
      (.cons (descends_take ":") (.cons (hg .expression).one .nil))))
  · exact .cons (runs_pure rfl) (.moved (descends_take "instanceof") (.cons (hg .type).one .nil))
  · exact .cons (runs_pure rfl)
      (.moved descends_binaryOperator (.cons (descends_unary hg).mono.one .nil))

theorem descends_expression : Descends (n + 1) b (expression g) (expression g') :=
  Runs.bind_moved (descends_unary hg)
    (descends_iterate fun left => (rounds_operatorStep hg left).mono)

/-! ### Modifiers, variables and statements -/

omit hg in
theorem descends_modifierAhead : Descends n false modifierAhead modifierAhead :=
  (descends_sees "@" 0).cond (descends_sees "interface" 1).not <|
    descends_test.cond
      ((descends_sees "synchronized" 0).cond (descends_sees "(" 1).not (runs_pure rfl))
      (runs_pure rfl)

omit hg in
theorem descends_empty : Descends (n + 1) b empty empty :=
  (DescendsAll.moved (descends_take ";") .nil).build _

theorem descends_annotationUse : Descends (n + 1) b (annotationUse g) (annotationUse g') :=
  (DescendsAll.moved (descends_take "@") (.cons (descends_qualifiedName false).mono.one
    (.cons ((descends_sees "(" 0).optional (descends_arguments hg).mono.one) .nil))).build _

theorem descends_modifier :
    Descends (n + 1) b
      (do if ← sees "@" then one (annotationUse g) else tok (takeIf isModifier .identifier))
      (do if ← sees "@" then one (annotationUse g') else tok (takeIf isModifier .identifier)) :=
  (descends_sees "@" 0).cond (descends_annotationUse hg).one descends_takeIf.tok

theorem descends_modifiers : Descends (n + 1) false (modifiers g) (modifiers g') :=
  Runs.bind (descends_modifierAhead.many (descends_modifier hg)) fun _ =>
    Runs.ite (runs_pure rfl) (runs_pure rfl)

theorem descends_namedVariable : Descends (n + 1) b (namedVariable g) (namedVariable g') := by
  refine (DescendsAll.moved descends_takeIdentifier
    (.cons ((descends_sees "[" 0).many (descends_dimension hg false).mono.one)
      (.cons ?_ .nil))).build _
  refine (descends_sees "=" 0).optional (DescendsAll.parts ?_)
  exact .cons (descends_take "=") (.cons ((descends_sees openBrace 0).cond
    (descends_arrayInit hg).mono.one (hg .expression).one) .nil)

theorem descends_declarators : Descends (n + 1) false (declarators g) (declarators g') :=
  (DescendsAll.cons (descends_commaList (descends_namedVariable hg)) .nil).build _

theorem descends_declarationAhead :
    Descends (n + 1) false (declarationAhead g) (declarationAhead g') := by
  refine Runs.bind descends_test fun primitive => ?_
  refine Runs.bind (descends_sees "." 1) fun dot => ?_
  refine Runs.ite (runs_pure rfl) (Runs.foresee (m := fun _ => false) ?_)
  exact Runs.bind (descends_typeTree hg true) fun _ =>
    descends_test.cond descends_test (runs_pure rfl)

theorem descends_variableAhead : Descends (n + 1) false (variableAhead g) (variableAhead g') :=
  descends_test.cond (runs_pure rfl) (descends_declarationAhead hg)

theorem descends_localVariable : Descends (n + 1) b (localVariable g) (localVariable g') :=
  (DescendsAll.cons (descends_modifiers hg) (.moved (descends_typeTree hg true).one
    (.cons (descends_declarators hg).mono.one (.cons (descends_take ";") .nil)))).build _

theorem descends_block : Descends (n + 1) b (block g) (block g') :=
  (DescendsAll.moved (descends_take openBrace)
    (.cons ((descends_sees closeBrace 0).not.many (hg .statement).one)
      (.cons (descends_take closeBrace) .nil))).build _

theorem descends_resource : Descends (n + 1) false (resource g) (resource g') := by
  refine (descends_variableAhead hg).cond (DescendsAll.build ?_ _)
    ((DescendsAll.cons (descends_expression hg).one .nil).build _)
  exact .cons (descends_modifiers hg) (.moved (descends_typeTree hg true).one
    (.cons descends_takeIdentifier (.cons (descends_take "=") (.cons (hg .expression).one .nil))))

theorem descends_alternative :
    Descends (n + 1) b (parts [tok (take "|"), one (g .type)])
      (parts [tok (take "|"), one (g' .type)]) :=
  (DescendsAll.moved (descends_take "|") (.cons (hg .type).one .nil)).parts

theorem descends_catchClause : Descends (n + 1) b (catchClause g) (catchClause g') :=
  (DescendsAll.moved (descends_take "catch") (.cons (descends_take "(")
    (.cons (descends_modifiers hg).mono (.cons (descends_typeTree hg true).mono.one
      (.cons ((descends_sees "|" 0).many (descends_alternative hg).mono)
        (.cons descends_takeIdentifier (.cons (descends_take ")")
          (.cons (descends_block hg).mono.one .nil)))))))).build _

theorem descends_finallyClause : Descends (n + 1) b (finallyClause g) (finallyClause g') :=
  (DescendsAll.moved (descends_take "finally") (.cons (descends_block hg).mono.one .nil)).build _

theorem descends_tryStatement : Descends (n + 1) b (tryStatement g) (tryStatement g') := by
  refine Runs.bind_moved (descends_take "try") fun keyword => ?_
  refine Runs.bind ((descends_sees "(" 0).optional
    (descends_delimited (descends_resource hg).mono).mono.one) fun resources => ?_
  refine Runs.bind (descends_block hg).mono.one fun body => ?_
  refine Runs.bind (DescendsAll.cons ((descends_sees "catch" 0).many (descends_catchClause hg).mono.one)
    (.cons ((descends_sees "finally" 0).optional (descends_finallyClause hg).mono.one) .nil)).parts
      fun handlers => ?_
  exact Runs.ite runs_expected (runs_pure rfl)

theorem descends_valueStatement (k : Kind) (keyword : String) :
    Descends (n + 1) b (valueStatement g k keyword) (valueStatement g' k keyword) :=
  (DescendsAll.moved (descends_take keyword)
    (.cons ((descends_sees ";" 0).not.optional (hg .expression).one)
      (.cons (descends_take ";") .nil))).build k

omit hg in
theorem descends_jumpStatement : Descends (n + 1) b jumpStatement jumpStatement :=
  (DescendsAll.moved descends_takeIf.tok
    (.cons (descends_test.optional descends_takeIdentifier)
      (.cons (descends_take ";") .nil))).build _

theorem descends_ifStatement : Descends (n + 1) b (ifStatement g) (ifStatement g') := by
  refine (DescendsAll.moved (descends_take "if") (.cons (descends_parenthesized hg).mono.one
    (.cons (hg .statement).one (.cons ?_ .nil)))).build _
  exact (descends_sees "else" 0).optional
    (DescendsAll.cons (descends_take "else") (.cons (hg .statement).one .nil)).parts

theorem descends_whileStatement : Descends (n + 1) b (whileStatement g) (whileStatement g') :=
  (DescendsAll.moved (descends_take "while")
    (.cons (descends_parenthesized hg).mono.one (.cons (hg .statement).one .nil))).build _

omit hg in
theorem descends_rejectStatement : Descends n b rejectStatement rejectStatement :=
  fun t ht => runs_unsupported t ht

omit hg in
theorem descends_labelAhead : Descends n false labelAhead labelAhead :=
  descends_test.cond (descends_sees ":" 1) (runs_pure rfl)

theorem descends_statement : Descends (n + 1) b (statement g) (statement g') :=
  (descends_sees openBrace 0).cond (descends_block hg) <|
  (descends_sees ";" 0).cond descends_empty <|
  (descends_sees "return" 0).cond (descends_valueStatement hg _ _) <|
  (descends_sees "throw" 0).cond (descends_valueStatement hg _ _) <|
  descends_test.cond descends_jumpStatement <|
  (descends_sees "if" 0).cond (descends_ifStatement hg) <|
  (descends_sees "while" 0).cond (descends_whileStatement hg) <|
  (descends_sees "try" 0).cond (descends_tryStatement hg) <|
  descends_test.cond descends_rejectStatement <|
  descends_labelAhead.cond runs_unsupported <|
  (descends_variableAhead hg).cond (descends_localVariable hg)
    ((DescendsAll.moved (descends_expression hg).one (.cons (descends_take ";") .nil)).build _)

/-! ### Declarations -/

theorem descends_enumConstant : Descends (n + 1) b (enumConstant g) (enumConstant g') :=
  (DescendsAll.cons (descends_modifiers hg) (.moved descends_takeIdentifier
    (.cons ((descends_sees "(" 0).optional (descends_arguments hg).mono.one)
      (.cons ((descends_sees openBrace 0).optional (descends_classBody hg).mono.one) .nil)))).build _

theorem descends_enumConstants : Descends (n + 1) false (enumConstants g) (enumConstants g') := by
  refine Runs.bind (descends_test.separated (descends_enumConstant hg)) fun constants => ?_
  exact (descends_sees ";" 0).cond (Runs.bind descends_takeIf fun _ => runs_pure rfl) (runs_pure rfl)

theorem descends_enumBody : Descends (n + 1) b (enumBody g) (enumBody g') :=
  (DescendsAll.moved (descends_take openBrace)
    (.cons (descends_enumConstants hg).mono.one
      (.cons ((descends_sees closeBrace 0).not.many (hg .member).one)
        (.cons (descends_take closeBrace) .nil)))).build _

theorem descends_classDeclaration (mods : List Element) :
    Descends (n + 1) b (classDeclaration g mods) (classDeclaration g' mods) := by
  refine (descends_sees "@" 0).cond runs_unsupported (descends_test.cond runs_unsupported ?_)
  refine Runs.bind (descends_sees "enum" 0) fun isEnum => DescendsAll.build ?_ _
  exact .cons (runs_pure rfl) (.moved descends_takeIf.tok (.cons descends_takeIdentifier
    (.cons ((descends_sees "<" 0).optional (descends_typeParameters hg).mono.one)
      (.cons ((descends_sees "extends" 0).optional (descends_typeList hg _ _).mono.one)
        (.cons ((descends_sees "implements" 0).optional (descends_typeList hg _ _).mono.one)
          (.cons (Runs.ite (descends_enumBody hg).mono.one (descends_classBody hg).mono.one) .nil))))))

theorem descends_parameter : Descends (n + 1) b (parameter g) (parameter g') :=
  (DescendsAll.cons (descends_modifiers hg) (.moved (descends_typeTree hg true).one
    (.cons ((descends_sees "..." 0).optional (descends_take "...")) (.cons descends_takeIdentifier
      (.cons ((descends_sees "[" 0).many (descends_dimension hg false).mono.one) .nil))))).build _

theorem descends_methodFrom (start : List Element) :
    Descends (n + 1) b (methodFrom g start) (methodFrom g' start) := by
  refine (DescendsAll.cons (runs_pure rfl)
    (.moved (descends_delimited (descends_parameter hg).mono).one (.cons
      ((descends_sees "throws" 0).optional (descends_typeList hg _ _).mono.one) (.cons
        ((descends_sees "default" 0).optional runs_unsupported) (.cons ?_ .nil))))).build _
  exact (descends_sees openBrace 0).cond (descends_block hg).mono.one (descends_take ";")

omit hg in
theorem descends_callAhead : Descends n false callAhead callAhead :=
  descends_test.cond (descends_sees "(" 1) (runs_pure rfl)

theorem descends_memberFrom (mods : List Element) :
    Descends (n + 1) b (memberFrom g mods) (memberFrom g' mods) := by
  refine Runs.bind (DescendsAll.cons (runs_pure rfl) (.cons ((descends_sees "<" 0).optional
    (descends_typeParameters hg).one) .nil)).parts fun start => ?_
  refine descends_callAhead.cond
    (Runs.bind_moved descends_takeIdentifier fun name => (descends_methodFrom hg _).mono)
    (Runs.bind_moved (descends_typeTree hg true).one fun type => ?_)
  exact descends_callAhead.cond
    (Runs.bind descends_takeIdentifier fun name => (descends_methodFrom hg _).mono)
    ((DescendsAll.cons (runs_pure rfl) (.cons (descends_declarators hg).mono.one
      (.cons (descends_take ";") .nil))).build _)

omit hg in
theorem descends_initializerAhead : Descends n false initializerAhead initializerAhead :=
  (descends_sees openBrace 0).cond (runs_pure rfl)
    ((descends_sees "static" 0).cond (descends_sees openBrace 1) (runs_pure rfl))

theorem descends_typeMember : Descends (n + 1) b (typeMember g) (typeMember g') := by
  refine (descends_sees ";" 0).cond descends_empty (descends_initializerAhead.cond
    (DescendsAll.build ?_ _) (Runs.bind (descends_modifiers hg) fun mods => ?_))
  · exact .cons ((descends_sees "static" 0).optional (descends_take "static"))
      (.moved (descends_block hg).one .nil)
  · exact descends_test.cond (descends_classDeclaration hg mods) (descends_memberFrom hg mods)

theorem descends_topLevel : Descends (n + 1) b (topLevel g) (topLevel g') :=
  (descends_sees ";" 0).cond descends_empty
    (Runs.bind (descends_modifiers hg) (descends_classDeclaration hg))

theorem descends_production (s : Symbol) : Descends (n + 1) b (production g s) (production g' s) := by
  cases s with
  | type => exact descends_typeTree hg true
  | expression => exact descends_expression hg
  | unary => exact descends_unary hg
  | arrayInit => exact descends_arrayInit hg
  | statement => exact descends_statement hg
  | member => exact descends_typeMember hg

end

/-! ### Whole units -/

theorem descends_packageClause : Descends (n + 1) b packageClause packageClause :=
  (DescendsAll.moved (descends_take "package") (.cons (descends_qualifiedName false).mono.one
    (.cons (descends_take ";") .nil))).build _

theorem descends_importClause : Descends (n + 1) b importClause importClause :=
  (DescendsAll.moved (descends_take "import") (.cons
    ((descends_sees "static" 0).optional (descends_take "static")) (.cons
      (descends_qualifiedName true).mono.one (.cons (descends_take ";") .nil)))).build _

theorem descends_atEnd : Descends n false atEnd atEnd := by
  intro t _
  refine ⟨rfl, fun es u h => ?_, nofun⟩
  cases h
  exact .refl _

theorem descends_compilationUnit {g g' : Grammar} (hg : ∀ s {b}, Descends n b (g s) (g' s)) :
    Descends (n + 1) false (compilationUnit g) (compilationUnit g') :=
  (DescendsAll.cons ((descends_sees "package" 0).optional descends_packageClause.one) (.cons
    ((descends_sees "import" 0).many descends_importClause.one) (.cons
      (descends_test.many (descends_topLevel hg).one) (.cons descends_atEnd .nil)))).build _

theorem descends_levels {d d' : Nat} (hd : n ≤ d) (hd' : n ≤ d') (base base' : Grammar) (s : Symbol) :
    Descends n b ((production^[d] base) s) ((production^[d'] base') s) := by
  induction n generalizing b d d' s with
  | zero => exact fun t ht => absurd ht (Nat.not_lt_zero _)
  | succ n ih =>
      obtain ⟨d, rfl⟩ := Nat.exists_eq_add_of_le' (show 1 ≤ d by omega)
      obtain ⟨d', rfl⟩ := Nat.exists_eq_add_of_le' (show 1 ≤ d' by omega)
      rw [Function.iterate_succ_apply', Function.iterate_succ_apply']
      exact descends_production
        (fun s _ => ih (Nat.le_of_succ_le_succ hd) (Nat.le_of_succ_le_succ hd') s) s

theorem nested_eq (depth : Nat) : nested depth = production^[depth] (nested 0) := by
  induction depth with
  | zero => rfl
  | succ depth ih => rw [Function.iterate_succ_apply', ← ih, nested]

/-! ### The loops of the grammar -/

/-- The loops that collect children: what says that there is one more item, and what the item is. -/
inductive Repeated (g : Grammar) : Parser Bool → Parser (List Element) → Prop where
  | names : Repeated g (dotThen isIdentifier) (parts [tok (take "."), tok takeIdentifier])
  | brackets : Repeated g emptyBrackets (parts [tok (take "["), tok (take "]")])
  | bounds : Repeated g (sees "&") (parts [tok (take "&"), one (g .type)])
  | shifts : Repeated g (test (isAdjacent ">")) (tok (take ">"))
  | dimensions (sized : Bool) : Repeated g (sees "[") (one (dimension g sized))
  | members : Repeated g (do return !(← sees closeBrace)) (one (g .member))
  | modifiers : Repeated g modifierAhead
      (do if ← sees "@" then one (annotationUse g) else tok (takeIf isModifier .identifier))
  | statements : Repeated g (do return !(← sees closeBrace)) (one (g .statement))
  | alternatives : Repeated g (sees "|") (parts [tok (take "|"), one (g .type)])
  | handlers : Repeated g (sees "catch") (one (catchClause g))
  | imports : Repeated g (sees "import") (one importClause)
  | declarations : Repeated g more (one (topLevel g))

/-- The lists: what separates the items, what stops the list in front of one, and what the items
are. -/
inductive Listed (g : Grammar) : Delimiter → Parser Bool → Parser Node → Prop where
  | types : Listed g .comma (pure false) (g .type)
  | typeArguments : Listed g .comma (sees ">") (g .type)
  | typeParameters : Listed g .comma (sees ">") (typeParameter g)
  | arguments : Listed g .comma (sees ")") (g .expression)
  | values : Listed g .comma (sees closeBrace)
      (do if ← sees openBrace then g .arrayInit else g .expression)
  | declarators : Listed g .comma (pure false) (namedVariable g)
  | resources : Listed g .semicolon (sees ")") (resource g)
  | constants : Listed g .comma (test (isOneOf [";", closeBrace])) (enumConstant g)
  | parameters : Listed g .comma (sees ")") (parameter g)

/-- The rounds of all loops of the grammar. -/
inductive Loop (g : Grammar) : {α : Type} → (α → Parser (α × Bool)) → Prop where
  | many {more : Parser Bool} {item : Parser (List Element)} (h : Repeated g more item) :
      Loop g (manyStep more item)
  | list {delimiter : Delimiter} {stop : Parser Bool} {item : Parser Node}
      (h : Listed g delimiter stop item) : Loop g (itemStep delimiter stop item)
  | postfixes : Loop g (postfixStep g)
  | operators : Loop g (operatorStep g)

section
variable {g : Grammar} (hg : ∀ s {b}, Descends n b (g s) (g s))
include hg

theorem rounds_repeated {more : Parser Bool} {item : Parser (List Element)}
    (h : Repeated g more item) (done : List Element) :
    Rounds n (manyStep more item done) (manyStep more item done) := by
  cases h with
  | names => exact rounds_manyStep descends_dotThen descends_furtherName.mono done
  | brackets => exact rounds_manyStep descends_emptyBrackets descends_brackets.mono done
  | bounds => exact rounds_manyStep descends_test (descends_bound hg).mono done
  | shifts => exact rounds_manyStep descends_test (descends_take ">") done
  | dimensions sized => exact rounds_manyStep descends_test (descends_dimension hg sized).mono.one done
  | members => exact rounds_manyStep (descends_sees closeBrace 0).not (hg .member).one done
  | modifiers => exact rounds_manyStep descends_modifierAhead (descends_modifier hg).mono done
  | statements => exact rounds_manyStep (descends_sees closeBrace 0).not (hg .statement).one done
  | alternatives => exact rounds_manyStep descends_test (descends_alternative hg).mono done
  | handlers => exact rounds_manyStep descends_test (descends_catchClause hg).mono.one done
  | imports => exact rounds_manyStep descends_test descends_importClause.mono.one done
  | declarations => exact rounds_manyStep descends_test (descends_topLevel hg).mono.one done

theorem rounds_listed {delimiter : Delimiter} {stop : Parser Bool} {item : Parser Node}
    (h : Listed g delimiter stop item) (done : List (Node × Option Token)) :
    Rounds n (itemStep delimiter stop item done) (itemStep delimiter stop item done) := by
  cases h with
  | types => exact rounds_itemStep (runs_pure rfl) (hg .type) done
  | typeArguments => exact rounds_itemStep descends_test (hg .type) done
  | typeParameters => exact rounds_itemStep descends_test (descends_typeParameter hg).mono done
  | arguments => exact rounds_itemStep descends_test (hg .expression) done
  | values => exact rounds_itemStep descends_test (descends_value hg) done
  | declarators => exact rounds_itemStep (runs_pure rfl) (descends_namedVariable hg).mono done
  | resources => exact rounds_itemStep descends_test (descends_resource hg).mono done
  | constants => exact rounds_itemStep descends_test (descends_enumConstant hg).mono done
  | parameters => exact rounds_itemStep descends_test (descends_parameter hg).mono done

theorem rounds_loop {α : Type} {step : α → Parser (α × Bool)} (h : Loop g step) (a : α) :
    Rounds n (step a) (step a) := by
  cases h with
  | many h => exact rounds_repeated hg h a
  | list h => exact rounds_listed hg h a
  | postfixes => exact (rounds_postfixStep hg a).mono
  | operators => exact (rounds_operatorStep hg a).mono

end

end Grammar

open Grammar Codemod.Java.Parser

/-- Parsing the tokens of a text comes to an end, with a tree or for a cause of its own. A round of a
loop takes a token or is the last; a construct comes to the ones inside it behind a token that it took,
on tries as well; so what stands below as many levels of constructs as there are tokens makes no
difference. The tree holds each token once, the one at the end included. -/
theorem parsing_ends {source : String} {tokens : Tokens} (h : tokenize source = .ok tokens) :
    (∀ place, parseTokens tokens ≠ .error (.stalled place)) ∧
      (∀ (depth : Nat) {α : Type} (step : α → Parser (α × Bool)), Loop (nested depth) step →
        ∀ a t a' u, t.ahead.length < depth → step a t = .ok ((a', true), u) → t.Advances true u) ∧
      (∀ (n : Nat) (g g' : Grammar), (∀ s, Descends n true (g s) (g' s)) →
        ∀ s, Descends (n + 1) true (production g s) (production g' s)) ∧
      (∀ (base : Grammar) (depth : Nat), tokens.ahead.length ≤ depth →
        (compilationUnit (production^[depth] base)).run tokens =
          (compilationUnit (nested (tokens.ahead.length + 1))).run tokens) ∧
      ∀ root, parseTokens tokens = .ok root →
        root.lexemes = tokens.toList.map Lexed.token ∧
          (root.lexemes.filter fun t => t.kind == .eof) = [tokens.last.token] := by
  have hnested : ∀ depth base d, tokens.ahead.length ≤ depth → tokens.ahead.length ≤ d →
      Descends (tokens.ahead.length + 1) false (compilationUnit (nested depth))
        (compilationUnit (production^[d] base)) := by
    intro depth base d hdepth hd
    rw [nested_eq]
    exact descends_compilationUnit fun s _ => descends_levels hdepth hd _ _ s
  have hlength := Nat.lt_succ_self tokens.ahead.length
  refine ⟨fun place hstalled => ?_, ?_, ?_, fun base depth hdepth => ?_, fun root hroot => ?_⟩
  · obtain ⟨-, -, hends⟩ := hnested _ (nested 0) _ (Nat.le_succ _) (Nat.le_refl _) tokens hlength
    rcases bind_eq_error.1 hstalled with hrun | ⟨_, _, hok⟩
    · exact hends place hrun
    · cases hok
  · intro depth α step hloop a t a' u ht hrun
    have hg : ∀ s {b}, Descends depth b (nested depth s) (nested depth s) := by
      intro s b
      rw [nested_eq]
      exact descends_levels (Nat.le_refl _) (Nat.le_refl _) _ _ s
    exact (rounds_loop hg hloop a t ht).2.1 _ _ hrun
  · exact fun n g g' hg s => descends_production (fun s _ => (hg s).weaken) s
  · exact (hnested _ base depth (Nat.le_succ _) hdepth tokens hlength).1
  · obtain ⟨hgenuine, hlast⟩ := genuine_tokenize h
    obtain ⟨-, hlexemes, -⟩ := unit_of_parseTokens hgenuine hlast hroot
    refine ⟨hlexemes, ?_⟩
    have hahead : (tokens.ahead.map Lexed.token).filter (fun t => t.kind == .eof) = [] := by
      rw [List.filter_eq_nil_iff]
      intro t ht
      obtain ⟨l, hl, rfl⟩ := List.mem_map.1 ht
      simpa using (hgenuine l hl).kind_ne_eof
    rw [hlexemes, Tokens.toList, List.map_append, List.filter_append, hahead]
    simp [hlast]

/-- A text that ends in a parenthesis behind a cast: whatever stands below twelve levels, what is
missing is the sign that closes it. -/
theorem parsing_ends_truncated :
    ∃ tokens, tokenize "class A \x7b int i = (x) ((y" = .ok tokens ∧ tokens.ahead.length = 12 ∧
      ∀ base, (compilationUnit (production^[12] base)).run tokens =
        .error (.expected (.sign ")") none 25) := by
  obtain ⟨tokens, htokens, hrun⟩ := exists_ok_of_any
    (x := tokenize "class A \x7b int i = (x) ((y")
    (p := fun tokens => tokens.ahead.length == 12 &&
      match (compilationUnit (nested 13)).run tokens with
      | .error e => e == .expected (.sign ")") none 25
      | .ok _ => false)
    (by decide +kernel)
  obtain ⟨hlength, hrun⟩ := Bool.and_eq_true_iff.1 hrun
  rw [beq_iff_eq] at hlength
  refine ⟨tokens, htokens, hlength, fun base => ?_⟩
  rw [(parsing_ends htokens).2.2.2.1 base 12 (Nat.le_of_eq hlength), hlength]
  split at hrun
  · rename_i e he
    rw [he, beq_iff_eq.1 hrun]
  · cases hrun

end Codemod.Java
