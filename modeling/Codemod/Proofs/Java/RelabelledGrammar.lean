import Codemod.Java.Unit
import Codemod.Proofs.Java.Growth
import Codemod.Proofs.Java.Relabelling

/-!
The productions of the grammar cannot tell a text from a relabelled one: each does with the
relabelled tokens what it does with the tokens, if the constructs inside it do.
-/

namespace Codemod.Java.Grammar

open Codemod.Tree Codemod.Java.Parser

variable {φ : Relabelling} {n : Nat}

/-! ### Tests -/

theorem ignores_isBinaryOperator : φ.Ignores isBinaryOperator :=
  φ.ignores_text (c := (· == .punct)) rfl binaryOperators.contains

theorem ignores_isPrefixOperator : φ.Ignores isPrefixOperator :=
  φ.ignores_text (c := (· == .punct)) rfl prefixOperators.contains

theorem ignores_isLiteral : φ.Ignores isLiteral :=
  φ.ignores_kind (· == .literal)

theorem ignores_isModifier : φ.Ignores isModifier :=
  φ.ignores_text (c := (· == .keyword)) rfl modifierWords.contains

theorem ignores_isName : φ.Ignores isName := by
  intro t
  rw [isName, isName, φ.ignores_isIdentifier]
  exact congrArg (isIdentifier t || ·)
    (φ.ignores_text (c := (· == .keyword)) rfl ["this", "super"].contains t)

theorem ignores_isMemberName : φ.Ignores isMemberName := by
  intro t
  rw [isMemberName, isMemberName, φ.ignores_isIdentifier, φ.ignores_isOneOf]

theorem ignores_startsOperand : φ.Ignores startsOperand := by
  intro t
  rw [startsOperand, startsOperand, φ.ignores_isIdentifier, ignores_isLiteral, φ.ignores_isOneOf]

theorem ignores_isAdjacent (text : String) : φ.Ignores (isAdjacent text) := by
  intro t
  have hsign : isSign (φ.token t) text = isSign t text := φ.ignores_isSign text t
  rw [isAdjacent, isAdjacent, hsign]
  exact congrArg (isSign t text && ·) (φ.isEmpty_lead t.lead)

theorem mirrors_sees (text : String) (k : Nat) : Mirrors φ n id (sees text k) (sees text k) :=
  mirrors_test (φ.ignores_isSign text)

theorem mirrors_take (text : String) :
    Mirrors φ n φ.elements (tok (take text)) (tok (take text)) :=
  (mirrors_takeIf (φ.ignores_isSign text)).tok

theorem takes_take (text : String) : Takes (tok (take text)) :=
  takes_takeIf.tok

theorem mirrors_takeIdentifier : Mirrors φ n φ.elements (tok takeIdentifier) (tok takeIdentifier) :=
  (mirrors_takeIf φ.ignores_isIdentifier).tok

theorem takes_takeIdentifier : Takes (tok takeIdentifier) :=
  takes_takeIf.tok

theorem mirrors_nil : Mirrors φ n φ.elements (pure []) (pure []) :=
  mirrors_pure φ.elements []

/-! ### Names and types -/

theorem mirrors_dotThen {p : Token → Bool} (hp : φ.Ignores p) :
    Mirrors φ n id (dotThen p) (dotThen p) :=
  (mirrors_sees "." 0).cond (mirrors_test hp) (mirrors_pure id false)

theorem mirrors_furtherNames : Mirrors φ n φ.elements furtherNames furtherNames :=
  (mirrors_dotThen φ.ignores_isIdentifier).many
    (MirrorsAll.cons (mirrors_take ".") (.cons mirrors_takeIdentifier .nil)).parts

theorem mirrors_qualifiedName (allowStar : Bool) :
    Mirrors φ n φ.node (qualifiedName allowStar) (qualifiedName allowStar) := by
  refine (MirrorsAll.cons mirrors_takeIdentifier (.cons mirrors_furtherNames (.cons ?_ .nil))).build _
  exact Mirrors.ite ((mirrors_dotThen (φ.ignores_isSign "*")).optional
    (MirrorsAll.cons (mirrors_take ".") (.cons (mirrors_take "*") .nil)).parts) mirrors_nil

theorem mirrors_emptyBrackets : Mirrors φ n id emptyBrackets emptyBrackets :=
  (mirrors_sees "[" 0).cond (mirrors_sees "]" 1) (mirrors_pure id false)

section
variable {k : Kind} {opening closing : String} (delimiter : Delimiter) {item item' : Parser Node}

theorem mirrors_delimited (hitem : Mirrors φ n φ.node item item') :
    Mirrors φ (n + 1) φ.node (delimited k opening closing delimiter item)
      (delimited k opening closing delimiter item') := by
  refine (MirrorsAll.takes (mirrors_take opening) (takes_take opening)
    (.cons ?_ (.cons (mirrors_take closing) .nil))).build k
  refine (mirrors_separated delimiter (φ.ignores_isSign _) (mirrors_sees closing 0) hitem).bind
    fun items => ?_
  rw [← φ.elements_map_node]
  exact mirrors_pure φ.elements (items.map .node)

theorem mirrors_commaList (hitem : Mirrors φ n φ.node item item') :
    Mirrors φ n φ.elements (commaList item) (commaList item') := by
  refine (mirrors_separated .comma (φ.ignores_isSign _) (mirrors_pure id false) hitem).bind
    fun items => ?_
  rw [← φ.elements_map_node]
  exact mirrors_pure φ.elements (items.map .node)

end

section
variable {g g' : Grammar} (hg : ∀ s, Mirrors φ n φ.node (g s) (g' s))
include hg

theorem mirrors_wildcard : Mirrors φ (n + 1) φ.node (wildcard g) (wildcard g') := by
  refine (MirrorsAll.takes (mirrors_take "?") (takes_take "?") (.cons ?_ .nil)).build _
  exact (mirrors_test (φ.ignores_isOneOf _)).optional
    (MirrorsAll.cons (mirrors_takeIf (φ.ignores_isOneOf _)).tok (.cons (hg .type).one .nil)).parts

theorem mirrors_typeArguments : Mirrors φ (n + 1) φ.node (typeArguments g) (typeArguments g') :=
  mirrors_delimited .comma (hg .type)

theorem mirrors_elementType : Mirrors φ (n + 1) φ.elements (elementType g) (elementType g') :=
  (mirrors_test φ.ignores_isPrimitive).cond (mirrors_takeIf φ.ignores_isPrimitive).tok
    (MirrorsAll.cons mirrors_takeIdentifier (.cons mirrors_furtherNames
      (.cons ((mirrors_sees "<" 0).optional (mirrors_typeArguments hg).one) .nil))).parts

theorem mirrors_typeTree (dimensions : Bool) :
    Mirrors φ (n + 1) φ.node (typeTree g dimensions) (typeTree g' dimensions) := by
  refine (mirrors_sees "?" 0).cond (mirrors_wildcard hg) ?_
  refine (MirrorsAll.cons (mirrors_elementType hg) (.cons ?_ .nil)).build _
  exact Mirrors.ite (mirrors_emptyBrackets.many
    (MirrorsAll.cons (mirrors_take "[") (.cons (mirrors_take "]") .nil)).parts) mirrors_nil

theorem mirrors_typeList (k : Kind) (keyword : String) :
    Mirrors φ (n + 1) φ.node (typeList g k keyword) (typeList g' k keyword) :=
  (MirrorsAll.takes (mirrors_take keyword) (takes_take keyword)
    (.cons (mirrors_commaList (hg .type)) .nil)).build k

theorem mirrors_typeParameter : Mirrors φ (n + 1) φ.node (typeParameter g) (typeParameter g') := by
  refine (MirrorsAll.takes mirrors_takeIdentifier takes_takeIdentifier (.cons ?_ .nil)).build _
  refine (mirrors_sees "extends" 0).optional (MirrorsAll.parts ?_)
  exact .cons (mirrors_take "extends") (.cons (hg .type).one (.cons ((mirrors_sees "&" 0).many
    (MirrorsAll.cons (mirrors_take "&") (.cons (hg .type).one .nil)).parts) .nil))

theorem mirrors_typeParameters : Mirrors φ (n + 1) φ.node (typeParameters g) (typeParameters g') :=
  mirrors_delimited .comma (mirrors_typeParameter hg).mono

/-! ### Expressions -/

omit hg in
theorem mirrors_binaryOperator : Mirrors φ n φ.elements binaryOperator binaryOperator := by
  refine (mirrors_sees ">" 0).cond (MirrorsAll.parts ?_) (mirrors_takeIf ignores_isBinaryOperator).tok
  exact .cons (mirrors_take ">") (.cons
    ((mirrors_test (ignores_isAdjacent ">")).many (mirrors_take ">"))
    (.cons ((mirrors_test (ignores_isAdjacent ">=")).optional (mirrors_take ">=")) .nil))

theorem mirrors_arguments : Mirrors φ (n + 1) φ.node (arguments g) (arguments g') :=
  mirrors_delimited .comma (hg .expression)

theorem mirrors_parenthesized : Mirrors φ (n + 1) φ.node (parenthesized g) (parenthesized g') :=
  (MirrorsAll.takes (mirrors_take "(") (takes_take "(")
    (.cons (hg .expression).one (.cons (mirrors_take ")") .nil))).build _

theorem mirrors_arrayInit : Mirrors φ (n + 1) φ.node (arrayInit g) (arrayInit g') :=
  mirrors_delimited .comma ((mirrors_sees openBrace 0).cond (hg .arrayInit) (hg .expression))

theorem mirrors_dimension (sized : Bool) :
    Mirrors φ (n + 1) φ.node (dimension g sized) (dimension g' sized) := by
  refine (MirrorsAll.takes (mirrors_take "[") (takes_take "[")
    (.cons ?_ (.cons (mirrors_take "]") .nil))).build _
  exact Mirrors.ite ((mirrors_sees "]" 0).not.optional (hg .expression).one) mirrors_nil

theorem mirrors_classBody : Mirrors φ (n + 1) φ.node (classBody g) (classBody g') :=
  (MirrorsAll.takes (mirrors_take openBrace) (takes_take openBrace)
    (.cons ((mirrors_sees closeBrace 0).not.many (hg .member).one)
      (.cons (mirrors_take closeBrace) .nil))).build _

theorem mirrors_creation : Mirrors φ (n + 1) φ.node (creation g) (creation g') := by
  refine (MirrorsAll.cons (mirrors_take "new") (.cons (mirrors_typeTree hg false).one .nil)).parts.bind
    fun start => ?_
  refine (mirrors_sees "[" 0).cond (MirrorsAll.build ?_ _) (MirrorsAll.build ?_ _)
  · exact .cons (mirrors_pure φ.elements start)
      (.cons ((mirrors_sees "[" 0).many (mirrors_dimension hg true).one)
        (.cons ((mirrors_sees openBrace 0).optional (mirrors_arrayInit hg).one) .nil))
  · exact .cons (mirrors_pure φ.elements start) (.cons (mirrors_arguments hg).one
      (.cons ((mirrors_sees openBrace 0).optional (mirrors_classBody hg).one) .nil))

theorem mirrors_nameOrCall : Mirrors φ (n + 1) φ.node (nameOrCall g) (nameOrCall g') := by
  have hname : Mirrors φ (n + 1) φ.elements (tok (takeIf isName .expression))
      (tok (takeIf isName .expression)) := (mirrors_takeIf ignores_isName).tok
  exact (mirrors_sees "(" 1).cond
    ((MirrorsAll.cons hname (.cons (mirrors_arguments hg).one .nil)).build _)
    ((MirrorsAll.cons hname .nil).build _)

theorem mirrors_primary : Mirrors φ (n + 1) φ.node (primary g) (primary g') :=
  (mirrors_test ignores_isLiteral).cond
    ((MirrorsAll.cons (mirrors_takeIf ignores_isLiteral).tok .nil).build _) <|
  (mirrors_test ignores_isName).cond (mirrors_nameOrCall hg) <|
  (mirrors_sees "new" 0).cond (mirrors_creation hg) <|
  (mirrors_test φ.ignores_isPrimitive).cond (mirrors_typeTree hg true) <|
  (mirrors_sees "(" 0).cond (mirrors_parenthesized hg) <|
  (mirrors_sees openBrace 0).cond (mirrors_arrayInit hg) mirrors_expected

theorem mirrors_member (operand : Node) :
    Mirrors φ (n + 1) φ.node (member g operand) (member g' (φ.node operand)) := by
  refine (mirrors_takeIf (φ.ignores_isSign ".")).bind fun dot => ?_
  have hstart : Mirrors φ (n + 1) φ.elements (pure [.node operand, .token dot])
      (pure [.node (φ.node operand), .token (φ.token dot)]) :=
    mirrors_pure φ.elements [.node operand, .token dot]
  have hname : Mirrors φ (n + 1) φ.elements (tok (takeIf isMemberName .memberName))
      (tok (takeIf isMemberName .memberName)) := (mirrors_takeIf ignores_isMemberName).tok
  exact (mirrors_test (φ.ignores_isOneOf _)).cond mirrors_fail <|
    (mirrors_sees "(" 1).cond
      ((MirrorsAll.cons hstart (.cons hname (.cons (mirrors_arguments hg).one .nil))).build _)
      ((MirrorsAll.cons hstart (.cons hname .nil)).build _)

theorem mirrors_postfixStep (operand : Node) :
    Mirrors φ (n + 1) (Prod.map φ.node id) (postfixStep g operand)
      (postfixStep g' (φ.node operand)) := by
  have hstart : Mirrors φ (n + 1) φ.elements (pure [.node operand]) (pure [.node (φ.node operand)]) :=
    mirrors_pure φ.elements [.node operand]
  have haccess := (MirrorsAll.cons hstart (.takes (mirrors_take "[") (takes_take "[")
    (.cons (hg .expression).one (.cons (mirrors_take "]") .nil)))).build .arrayAccess
  have hsign : Mirrors φ (n + 1) φ.elements (tok (takeIf (isOneOf ["++", "--"]) .expression))
      (tok (takeIf (isOneOf ["++", "--"]) .expression)) := (mirrors_takeIf (φ.ignores_isOneOf _)).tok
  have hcount := (MirrorsAll.cons hstart (.cons hsign .nil)).build .unary
  exact (mirrors_sees "->" 0).cond mirrors_fail <|
    (mirrors_sees "::" 0).cond mirrors_fail <|
    (mirrors_sees "." 0).cond ((mirrors_member hg operand).round true) <|
    (mirrors_sees "[" 0).cond (haccess.round true) <|
    (mirrors_test (φ.ignores_isOneOf _)).cond (hcount.round true)
      (mirrors_pure (Prod.map φ.node id) (operand, false))

theorem mirrors_castAhead : Mirrors φ (n + 1) id (castAhead g) (castAhead g') := by
  refine Mirrors.foresee ((mirrors_takeIf (φ.ignores_isSign "(")).bind fun _ => ?_)
  refine (mirrors_test φ.ignores_isPrimitive).bind fun primitive => ?_
  refine (mirrors_typeTree hg true).bind fun _ => ?_
  refine (mirrors_takeIf (φ.ignores_isSign ")")).bind fun _ => ?_
  exact Mirrors.ite (mirrors_pure id true) (mirrors_test ignores_startsOperand)

theorem mirrors_unary : Mirrors φ (n + 1) φ.node (unary g) (unary g') := by
  refine (mirrors_test ignores_isPrefixOperator).cond (MirrorsAll.build ?_ _)
    ((mirrors_castAhead hg).cond (MirrorsAll.build ?_ _) ?_)
  · exact .takes (mirrors_takeIf ignores_isPrefixOperator).tok takes_takeIf.tok
      (.cons (hg .unary).one .nil)
  · exact .takes (mirrors_take "(") (takes_take "(") (.cons (hg .type).one
      (.cons (mirrors_take ")") (.cons (hg .unary).one .nil)))
  · exact (mirrors_primary hg).bind (mirrors_iterate (mirrors_postfixStep hg))

theorem mirrors_operatorStep (left : Node) :
    Mirrors φ (n + 1) (Prod.map φ.node id) (operatorStep g left)
      (operatorStep g' (φ.node left)) := by
  have hstart : Mirrors φ (n + 1) φ.elements (pure [.node left]) (pure [.node (φ.node left)]) :=
    mirrors_pure φ.elements [.node left]
  have hchoice := (MirrorsAll.cons hstart (.takes (mirrors_take "?") (takes_take "?")
    (.cons (hg .expression).one (.cons (mirrors_take ":")
      (.cons (hg .expression).one .nil))))).build .conditional
  have hinstance := (MirrorsAll.cons hstart (.takes (mirrors_take "instanceof")
    (takes_take "instanceof") (.cons (hg .type).one .nil))).build .binary
  have hbinary := (MirrorsAll.cons hstart (.cons mirrors_binaryOperator
    (.cons (mirrors_unary hg).one .nil))).build .binary
  exact (mirrors_sees "?" 0).cond (hchoice.round false) <|
    (mirrors_sees "instanceof" 0).cond (hinstance.round true) <|
    (mirrors_test ignores_isBinaryOperator).cond (hbinary.round true)
      (mirrors_pure (Prod.map φ.node id) (left, false))

theorem mirrors_expression : Mirrors φ (n + 1) φ.node (expression g) (expression g') :=
  (mirrors_unary hg).bind (mirrors_iterate (mirrors_operatorStep hg))

/-! ### Modifiers, variables and statements -/

omit hg in
theorem mirrors_modifierAhead : Mirrors φ n id modifierAhead modifierAhead :=
  (mirrors_sees "@" 0).cond (mirrors_sees "interface" 1).not <|
    (mirrors_test ignores_isModifier).cond
      ((mirrors_sees "synchronized" 0).cond (mirrors_sees "(" 1).not (mirrors_pure id true))
      (mirrors_pure id false)

omit hg in
theorem mirrors_empty : Mirrors φ n φ.node empty empty :=
  (MirrorsAll.cons (mirrors_take ";") .nil).build _

theorem mirrors_annotationUse : Mirrors φ (n + 1) φ.node (annotationUse g) (annotationUse g') :=
  (MirrorsAll.cons (mirrors_take "@") (.cons (mirrors_qualifiedName false).one
    (.cons ((mirrors_sees "(" 0).optional (mirrors_arguments hg).one) .nil))).build _

theorem mirrors_modifiers : Mirrors φ (n + 1) φ.elements (modifiers g) (modifiers g') := by
  refine (mirrors_modifierAhead.many ((mirrors_sees "@" 0).cond (mirrors_annotationUse hg).one
    (mirrors_takeIf ignores_isModifier).tok)).bind fun children => ?_
  have hempty : (φ.elements children).isEmpty = children.isEmpty := by
    rw [φ.elements_eq_map, List.isEmpty_map]
  rw [hempty]
  exact mirrors_nil.ite (mirrors_hoisted _ children).one

theorem mirrors_namedVariable : Mirrors φ (n + 1) φ.node (namedVariable g) (namedVariable g') := by
  refine (MirrorsAll.cons mirrors_takeIdentifier
    (.cons ((mirrors_sees "[" 0).many (mirrors_dimension hg false).one) (.cons ?_ .nil))).build _
  refine (mirrors_sees "=" 0).optional (MirrorsAll.parts ?_)
  exact .takes (mirrors_take "=") (takes_take "=") (.cons ((mirrors_sees openBrace 0).cond
    (mirrors_arrayInit hg).mono.one (hg .expression).one) .nil)

theorem mirrors_declarators : Mirrors φ (n + 1) φ.node (declarators g) (declarators g') :=
  (MirrorsAll.cons (mirrors_commaList (mirrors_namedVariable hg)) .nil).build _

theorem mirrors_declarationAhead :
    Mirrors φ (n + 1) id (declarationAhead g) (declarationAhead g') := by
  refine (mirrors_test φ.ignores_isPrimitive).bind fun primitive => ?_
  refine (mirrors_sees "." 1).bind fun dot => ?_
  refine (mirrors_pure id true).ite (Mirrors.foresee ?_)
  exact (mirrors_typeTree hg true).bind fun _ => (mirrors_test φ.ignores_isIdentifier).cond
    (mirrors_test (φ.ignores_isOneOf _)) (mirrors_pure id false)

theorem mirrors_variableAhead : Mirrors φ (n + 1) id (variableAhead g) (variableAhead g') :=
  (mirrors_test (φ.ignores_isOneOf _)).cond (mirrors_pure id true) (mirrors_declarationAhead hg)

theorem mirrors_localVariable : Mirrors φ (n + 1) φ.node (localVariable g) (localVariable g') :=
  (MirrorsAll.cons (mirrors_modifiers hg) (.cons (mirrors_typeTree hg true).one
    (.cons (mirrors_declarators hg).one (.cons (mirrors_take ";") .nil)))).build _

theorem mirrors_block : Mirrors φ (n + 1) φ.node (block g) (block g') :=
  (MirrorsAll.takes (mirrors_take openBrace) (takes_take openBrace)
    (.cons ((mirrors_sees closeBrace 0).not.many (hg .statement).one)
      (.cons (mirrors_take closeBrace) .nil))).build _

theorem mirrors_resource : Mirrors φ (n + 1) φ.node (resource g) (resource g') := by
  refine (mirrors_variableAhead hg).cond (MirrorsAll.build ?_ _)
    ((MirrorsAll.cons (mirrors_expression hg).one .nil).build _)
  exact .cons (mirrors_modifiers hg) (.cons (mirrors_typeTree hg true).one
    (.takes mirrors_takeIdentifier takes_takeIdentifier (.cons (mirrors_take "=")
      (.cons (hg .expression).one .nil))))

theorem mirrors_catchClause : Mirrors φ (n + 1) φ.node (catchClause g) (catchClause g') := by
  have htypes : Mirrors φ n φ.elements (manyWhile (sees "|") (parts [tok (take "|"), one (g .type)]))
      (manyWhile (sees "|") (parts [tok (take "|"), one (g' .type)])) :=
    (mirrors_sees "|" 0).many (MirrorsAll.cons (mirrors_take "|") (.cons (hg .type).one .nil)).parts
  exact (MirrorsAll.takes (mirrors_take "catch") (takes_take "catch") (.cons (mirrors_take "(")
    (.cons (mirrors_modifiers hg).mono (.cons (mirrors_typeTree hg true).mono.one (.cons htypes
      (.cons mirrors_takeIdentifier (.cons (mirrors_take ")")
        (.cons (mirrors_block hg).mono.one .nil)))))))).build _

theorem mirrors_finallyClause : Mirrors φ (n + 1) φ.node (finallyClause g) (finallyClause g') :=
  (MirrorsAll.cons (mirrors_take "finally") (.cons (mirrors_block hg).one .nil)).build _

theorem mirrors_tryStatement : Mirrors φ (n + 1) φ.node (tryStatement g) (tryStatement g') := by
  refine (mirrors_take "try").bind fun keyword => ?_
  refine ((mirrors_sees "(" 0).optional
    (mirrors_delimited .semicolon (mirrors_resource hg).mono).one).bind fun resources => ?_
  refine (mirrors_block hg).one.bind fun body => ?_
  refine (MirrorsAll.cons ((mirrors_sees "catch" 0).many (mirrors_catchClause hg).one)
    (.cons ((mirrors_sees "finally" 0).optional (mirrors_finallyClause hg).one) .nil)).parts.bind
      fun handlers => ?_
  have hempty : ∀ es, (φ.elements es).isEmpty = es.isEmpty := by
    intro es
    rw [φ.elements_eq_map, List.isEmpty_map]
  rw [hempty, hempty, ← φ.elements_append, ← φ.elements_append, ← φ.elements_append]
  exact mirrors_expected.ite (mirrors_hoisted _ _)

theorem mirrors_valueStatement (k : Kind) (keyword : String) :
    Mirrors φ (n + 1) φ.node (valueStatement g k keyword) (valueStatement g' k keyword) :=
  (MirrorsAll.takes (mirrors_take keyword) (takes_take keyword)
    (.cons ((mirrors_sees ";" 0).not.optional (hg .expression).one)
      (.cons (mirrors_take ";") .nil))).build k

omit hg in
theorem mirrors_jumpStatement : Mirrors φ n φ.node jumpStatement jumpStatement :=
  (MirrorsAll.cons (mirrors_takeIf (φ.ignores_isOneOf _)).tok
    (.cons ((mirrors_test φ.ignores_isIdentifier).optional mirrors_takeIdentifier)
      (.cons (mirrors_take ";") .nil))).build _

theorem mirrors_ifStatement : Mirrors φ (n + 1) φ.node (ifStatement g) (ifStatement g') := by
  refine (MirrorsAll.takes (mirrors_take "if") (takes_take "if")
    (.cons (mirrors_parenthesized hg).mono.one (.cons (hg .statement).one (.cons ?_ .nil)))).build _
  exact (mirrors_sees "else" 0).optional
    (MirrorsAll.cons (mirrors_take "else") (.cons (hg .statement).one .nil)).parts

theorem mirrors_whileStatement : Mirrors φ (n + 1) φ.node (whileStatement g) (whileStatement g') :=
  (MirrorsAll.takes (mirrors_take "while") (takes_take "while")
    (.cons (mirrors_parenthesized hg).mono.one (.cons (hg .statement).one .nil))).build _

omit hg in
theorem mirrors_rejectStatement : Mirrors φ n φ.node rejectStatement rejectStatement :=
  fun _ _ => ⟨fun _ _ h => absurd h fail_run, fun _ _ => ⟨_, rfl⟩⟩

omit hg in
theorem mirrors_labelAhead : Mirrors φ n id labelAhead labelAhead :=
  (mirrors_test φ.ignores_isIdentifier).cond (mirrors_sees ":" 1) (mirrors_pure id false)

theorem mirrors_statement : Mirrors φ (n + 1) φ.node (statement g) (statement g') :=
  (mirrors_sees openBrace 0).cond (mirrors_block hg) <|
  (mirrors_sees ";" 0).cond mirrors_empty <|
  (mirrors_sees "return" 0).cond (mirrors_valueStatement hg _ _) <|
  (mirrors_sees "throw" 0).cond (mirrors_valueStatement hg _ _) <|
  (mirrors_test (φ.ignores_isOneOf _)).cond mirrors_jumpStatement <|
  (mirrors_sees "if" 0).cond (mirrors_ifStatement hg) <|
  (mirrors_sees "while" 0).cond (mirrors_whileStatement hg) <|
  (mirrors_sees "try" 0).cond (mirrors_tryStatement hg) <|
  (mirrors_test (φ.ignores_isOneOf _)).cond mirrors_rejectStatement <|
  mirrors_labelAhead.cond mirrors_fail <|
  (mirrors_variableAhead hg).cond (mirrors_localVariable hg)
    ((MirrorsAll.cons (mirrors_expression hg).one (.cons (mirrors_take ";") .nil)).build _)

/-! ### Declarations -/

theorem mirrors_enumConstant : Mirrors φ (n + 1) φ.node (enumConstant g) (enumConstant g') :=
  (MirrorsAll.cons (mirrors_modifiers hg) (.cons mirrors_takeIdentifier
    (.cons ((mirrors_sees "(" 0).optional (mirrors_arguments hg).one)
      (.cons ((mirrors_sees openBrace 0).optional (mirrors_classBody hg).one) .nil)))).build _

omit hg in
theorem elements_terminated (constants : List Node) (semicolon : Token) :
    φ.elements (terminated constants semicolon) =
      terminated (constants.map φ.node) (φ.token semicolon) := by
  rw [terminated, terminated, List.getLast?_map]
  cases constants.getLast? with
  | none => rfl
  | some last =>
      rw [Option.map_some, φ.elements_map_node, List.map_append, List.map_dropLast,
        List.map_singleton, φ.node_closedBy]

theorem mirrors_enumConstants : Mirrors φ (n + 1) φ.node (enumConstants g) (enumConstants g') := by
  refine (mirrors_separated .comma (φ.ignores_isSign _) (mirrors_test (φ.ignores_isOneOf _))
    (mirrors_enumConstant hg)).bind fun constants => ?_
  refine (mirrors_sees ";" 0).cond ?_ ?_
  · refine (mirrors_takeIf (φ.ignores_isSign ";")).bind fun semicolon => ?_
    rw [← elements_terminated]
    exact mirrors_hoisted _ _
  · rw [← φ.elements_map_node]
    exact mirrors_hoisted _ _

theorem mirrors_enumBody : Mirrors φ (n + 1) φ.node (enumBody g) (enumBody g') :=
  (MirrorsAll.takes (mirrors_take openBrace) (takes_take openBrace)
    (.cons (mirrors_enumConstants hg).mono.one
      (.cons ((mirrors_sees closeBrace 0).not.many (hg .member).one)
        (.cons (mirrors_take closeBrace) .nil)))).build _

theorem mirrors_declared (isEnum : Bool) (mods : List Element) :
    Mirrors φ (n + 1) φ.node
      (build .classDeclaration
        [ return mods, tok (takeIf (isOneOf typeKeywords) .typeKeyword), tok takeIdentifier,
          optional (sees "<") (one (typeParameters g)),
          optional (sees "extends") (one (typeList g .extendsClause "extends")),
          optional (sees "implements") (one (typeList g .implementsClause "implements")),
          if isEnum then one (enumBody g) else one (classBody g) ])
      (build .classDeclaration
        [ return φ.elements mods, tok (takeIf (isOneOf typeKeywords) .typeKeyword), tok takeIdentifier,
          optional (sees "<") (one (typeParameters g')),
          optional (sees "extends") (one (typeList g' .extendsClause "extends")),
          optional (sees "implements") (one (typeList g' .implementsClause "implements")),
          if isEnum then one (enumBody g') else one (classBody g') ]) :=
  (MirrorsAll.cons (mirrors_pure φ.elements mods)
    (.cons (mirrors_takeIf (φ.ignores_isOneOf _)).tok (.cons mirrors_takeIdentifier
      (.cons ((mirrors_sees "<" 0).optional (mirrors_typeParameters hg).one)
        (.cons ((mirrors_sees "extends" 0).optional (mirrors_typeList hg _ _).one)
          (.cons ((mirrors_sees "implements" 0).optional (mirrors_typeList hg _ _).one)
            (.cons ((mirrors_enumBody hg).one.ite (mirrors_classBody hg).one) .nil))))))).build _

omit hg in
theorem declared_fails {mods : List Element} {ps : List (Parser (List Element))} {t u : Tokens}
    {n : Node} (h : isIdentifier (t.nth 0) = true) :
    build .classDeclaration
      ((return mods) :: tok (takeIf (isOneOf typeKeywords) .typeKeyword) :: ps) t ≠ .ok (n, u) := by
  intro hrun
  obtain ⟨es, hes, _⟩ := build_run.1 hrun
  obtain ⟨_, v, _, hmods, hrest, _⟩ := parts_cons_run.1 hes
  obtain ⟨rfl, rfl⟩ := pure_run.1 hmods
  obtain ⟨keyword, w, _, hkeyword, _⟩ := parts_tok_run.1 hrest
  obtain ⟨l, rest, ht, _, rfl, hsign⟩ := takeIf_run.1 hkeyword
  rw [ht] at h
  have hkind : l.token.kind = .identifier := by simpa [isIdentifier, Tokens.nth] using h
  simp [isOneOf, isSign, hkind] at hsign

theorem mirrors_classDeclaration (mods : List Element) :
    Mirrors φ (n + 1) φ.node (classDeclaration g mods) (classDeclaration g' (φ.elements mods)) := by
  refine (mirrors_sees "@" 0).cond mirrors_fail ?_
  refine mirrors_unless (c := isIdentifier) φ.ignores_isIdentifier ?_ ?_ ?_
    ((mirrors_sees "enum" 0).bind fun isEnum => mirrors_declared hg isEnum mods)
  · intro t h
    rw [isRecord, Bool.and_eq_true] at h
    exact h.1
  all_goals
    intro t h x u hrun
    obtain ⟨_, v, hsees, hrun⟩ := bind_run.1 hrun
    cases hsees
    exact declared_fails h hrun

theorem mirrors_parameter : Mirrors φ (n + 1) φ.node (parameter g) (parameter g') :=
  (MirrorsAll.cons (mirrors_modifiers hg) (.cons (mirrors_typeTree hg true).one
    (.cons ((mirrors_sees "..." 0).optional (mirrors_take "...")) (.cons mirrors_takeIdentifier
      (.cons ((mirrors_sees "[" 0).many (mirrors_dimension hg false).one) .nil))))).build _

theorem mirrors_methodFrom (start : List Element) :
    Mirrors φ (n + 1) φ.node (methodFrom g start) (methodFrom g' (φ.elements start)) := by
  refine (MirrorsAll.cons (mirrors_pure φ.elements start)
    (.cons (mirrors_delimited .comma (mirrors_parameter hg).mono).one (.cons
      ((mirrors_sees "throws" 0).optional (mirrors_typeList hg _ _).one) (.cons
        ((mirrors_sees "default" 0).optional mirrors_fail) (.cons ?_ .nil))))).build _
  exact (mirrors_sees openBrace 0).cond (mirrors_block hg).one (mirrors_take ";")

omit hg in
theorem mirrors_callAhead : Mirrors φ n id callAhead callAhead :=
  (mirrors_test φ.ignores_isIdentifier).cond (mirrors_sees "(" 1) (mirrors_pure id false)

theorem mirrors_memberFrom (mods : List Element) :
    Mirrors φ (n + 1) φ.node (memberFrom g mods) (memberFrom g' (φ.elements mods)) := by
  refine (MirrorsAll.cons (mirrors_pure φ.elements mods) (.cons ((mirrors_sees "<" 0).optional
    (mirrors_typeParameters hg).one) .nil)).parts.bind fun start => ?_
  refine mirrors_callAhead.cond (mirrors_takeIdentifier.bind fun name => ?_)
    ((mirrors_typeTree hg true).one.bind fun type => ?_)
  · rw [← φ.elements_append]
    exact mirrors_methodFrom hg (start ++ name)
  refine mirrors_callAhead.cond (mirrors_takeIdentifier.bind fun name => ?_) (MirrorsAll.build ?_ _)
  · rw [← φ.elements_append, ← φ.elements_append]
    exact mirrors_methodFrom hg (start ++ type ++ name)
  · rw [← φ.elements_append]
    exact .cons (mirrors_pure φ.elements (start ++ type)) (.cons (mirrors_declarators hg).one
      (.cons (mirrors_take ";") .nil))

omit hg in
theorem mirrors_initializerAhead : Mirrors φ n id initializerAhead initializerAhead :=
  (mirrors_sees openBrace 0).cond (mirrors_pure id true)
    ((mirrors_sees "static" 0).cond (mirrors_sees openBrace 1) (mirrors_pure id false))

theorem mirrors_typeMember : Mirrors φ (n + 1) φ.node (typeMember g) (typeMember g') := by
  refine (mirrors_sees ";" 0).cond mirrors_empty (mirrors_initializerAhead.cond (MirrorsAll.build ?_ _)
    ((mirrors_modifiers hg).bind fun mods => ?_))
  · exact .cons ((mirrors_sees "static" 0).optional (mirrors_take "static"))
      (.cons (mirrors_block hg).one .nil)
  · exact (mirrors_test (φ.ignores_isOneOf _)).cond (mirrors_classDeclaration hg mods)
      (mirrors_memberFrom hg mods)

theorem mirrors_topLevel : Mirrors φ (n + 1) φ.node (topLevel g) (topLevel g') :=
  (mirrors_sees ";" 0).cond mirrors_empty
    ((mirrors_modifiers hg).bind (mirrors_classDeclaration hg))

theorem mirrors_production (s : Symbol) :
    Mirrors φ (n + 1) φ.node (production g s) (production g' s) := by
  cases s with
  | type => exact mirrors_typeTree hg true
  | expression => exact mirrors_expression hg
  | unary => exact mirrors_unary hg
  | arrayInit => exact mirrors_arrayInit hg
  | statement => exact mirrors_statement hg
  | member => exact mirrors_typeMember hg

end

theorem mirrors_nested {d d' : Nat} (hd : n ≤ d) (hd' : n ≤ d') (s : Symbol) :
    Mirrors φ n φ.node (nested d s) (nested d' s) := by
  induction n generalizing d d' s with
  | zero => exact fun t ht => absurd ht (Nat.not_lt_zero _)
  | succ n ih =>
      cases d with
      | zero => exact absurd hd (Nat.not_succ_le_zero n)
      | succ d =>
          cases d' with
          | zero => exact absurd hd' (Nat.not_succ_le_zero n)
          | succ d' =>
              exact mirrors_production
                (ih (Nat.le_of_succ_le_succ hd) (Nat.le_of_succ_le_succ hd')) s

/-! ### Whole units -/

theorem mirrors_packageClause : Mirrors φ n φ.node packageClause packageClause :=
  (MirrorsAll.cons (mirrors_take "package") (.cons (mirrors_qualifiedName false).one
    (.cons (mirrors_take ";") .nil))).build _

theorem mirrors_importClause : Mirrors φ n φ.node importClause importClause :=
  (MirrorsAll.cons (mirrors_take "import") (.cons
    ((mirrors_sees "static" 0).optional (mirrors_take "static")) (.cons
      (mirrors_qualifiedName true).one (.cons (mirrors_take ";") .nil)))).build _

theorem mirrors_more : Mirrors φ n id more more :=
  mirrors_test (φ.ignores_kind (· != .eof))

theorem mirrors_atEnd : Mirrors φ n φ.elements atEnd atEnd := by
  intro t _
  refine ⟨fun es u h => ?_, nofun⟩
  cases h
  exact ⟨rfl, le_rfl⟩

theorem mirrors_compilationUnit {g g' : Grammar} (hg : ∀ s, Mirrors φ n φ.node (g s) (g' s)) :
    Mirrors φ (n + 1) φ.node (compilationUnit g) (compilationUnit g') :=
  (MirrorsAll.cons ((mirrors_sees "package" 0).optional mirrors_packageClause.one) (.cons
    ((mirrors_sees "import" 0).many mirrors_importClause.one) (.cons
      (mirrors_more.many (mirrors_topLevel hg).one) (.cons mirrors_atEnd .nil)))).build _

end Grammar

theorem parseTokens_relabelled (φ : Relabelling) (tokens : Tokens) :
    (∀ root, parseTokens tokens = .ok root → parseTokens (φ.tokens tokens) = .ok (φ.node root)) ∧
      ∀ e, parseTokens tokens = .error e → ∃ e', parseTokens (φ.tokens tokens) = .error e' := by
  have hdepth : (φ.tokens tokens).ahead.length = tokens.ahead.length := List.length_map _
  obtain ⟨hok, herror⟩ := Grammar.mirrors_compilationUnit (φ := φ)
    (Grammar.mirrors_nested le_rfl le_rfl) tokens
    (Nat.lt_succ_of_lt (Nat.lt_succ_self tokens.ahead.length))
  constructor
  · intro root h
    obtain ⟨⟨unit, rest⟩, hunit, hroot⟩ := bind_eq_ok.1 h
    cases hroot
    refine bind_eq_ok.2 ⟨(φ.node root, φ.tokens rest), ?_, rfl⟩
    rw [hdepth]
    exact (hok root rest hunit).1
  · intro e h
    cases hunit : (Grammar.compilationUnit
        (Grammar.nested (tokens.ahead.length + 1))).run tokens with
    | ok x =>
        rw [parseTokens, hunit] at h
        cases h
    | error e =>
        obtain ⟨e', he'⟩ := herror e hunit
        refine ⟨e', ?_⟩
        have hrun : (Grammar.compilationUnit (Grammar.nested (tokens.ahead.length + 1))).run
            (φ.tokens tokens) = .error e' := he'
        rw [parseTokens, hdepth, hrun]
        rfl

end Codemod.Java
