import Codemod.Proofs.Java.Attributed
import Codemod.Proofs.Tree.Places

/-!
Which kinds of node stand directly in which. Each construct of the grammar makes nodes of a few kinds
and puts nodes of a few kinds into them, so a table of kinds says how the nodes of a unit can nest.
Bodies of classes, for one, stand in declarations, in creations of objects and in constants of
enumerations, and nowhere else.
-/

namespace Codemod.Java

open Codemod.Tree

/-! ### The table -/

/-- The kinds that stand as operands. A primitive type is one, in front of a dot. -/
def expressionKinds : List Kind :=
  [ .identifier, .literal, .fieldAccess, .methodInvocation, .newClass, .newArray, .arrayInit,
    .arrayAccess, .binary, .unary, .parenthesized, .conditional, .cast, .typeTree ]

/-- The kinds that stand in a block. -/
def statementKinds : List Kind :=
  [ .block, .empty, .expressionStatement, .variableDeclaration, .returnStatement, .throwStatement,
    .jumpStatement, .ifStatement, .whileStatement, .tryStatement ]

/-- The kinds that stand in the body of a class. -/
def memberKinds : List Kind :=
  [.empty, .initializerBlock, .classDeclaration, .methodDeclaration, .variableDeclaration]

/-- The kinds of node that stand directly in a node of this kind. -/
def Kind.holds : Kind → List Kind
  | .compilationUnit => [.packageClause, .importClause, .empty, .classDeclaration]
  | .packageClause | .importClause => [.qualifiedName]
  | .modifiers => [.annotationUse]
  | .annotationUse => [.qualifiedName, .arguments]
  | .classDeclaration =>
      [.modifiers, .typeParameters, .extendsClause, .implementsClause, .classBody, .enumBody]
  | .typeParameters => [.typeParameter]
  | .typeParameter | .typeArguments | .extendsClause | .implementsClause | .throwsClause => [.typeTree]
  | .typeTree => [.typeArguments, .typeTree]
  | .classBody => memberKinds
  | .enumBody => .enumConstants :: memberKinds
  | .enumConstants => [.enumConstant]
  | .enumConstant => [.modifiers, .arguments, .classBody]
  | .methodDeclaration =>
      [.modifiers, .typeParameters, .typeTree, .parameters, .throwsClause, .block]
  | .parameters => [.parameter]
  | .parameter => [.modifiers, .typeTree, .dimension]
  | .initializerBlock | .finallyClause => [.block]
  | .variableDeclaration => [.modifiers, .typeParameters, .typeTree, .declarators]
  | .declarators => [.namedVariable]
  | .namedVariable => .dimension :: expressionKinds
  | .block => statementKinds
  | .ifStatement | .whileStatement => .parenthesized :: statementKinds
  | .tryStatement => [.tryResources, .block, .catchClause, .finallyClause]
  | .tryResources => [.resource]
  | .resource => .modifiers :: expressionKinds
  | .catchClause => [.modifiers, .typeTree, .block]
  | .methodInvocation => .arguments :: expressionKinds
  | .newClass => [.typeTree, .arguments, .classBody]
  | .newArray => [.typeTree, .dimension, .arrayInit]
  | .expressionStatement | .returnStatement | .throwStatement | .fieldAccess | .arguments | .dimension
  | .arrayInit | .arrayAccess | .binary | .unary | .parenthesized | .conditional | .cast =>
      expressionKinds
  | .qualifiedName | .empty | .jumpStatement | .identifier | .literal => []

/-- The kinds of the nodes that a construct makes. -/
def Symbol.makes : Symbol → List Kind
  | .type => [.typeTree]
  | .expression | .unary => expressionKinds
  | .arrayInit => [.arrayInit]
  | .statement => statementKinds
  | .member => memberKinds

/-- The child nodes are of the kinds that stand in a node of its kind. -/
def Nested (n : Node) : Prop :=
  ∀ kind, n.kind = .java kind → ∀ c, .node c ∈ n.children → ∃ k ∈ kind.holds, c.kind = .java k

/-- The node is of one of the kinds, and its nodes nest as they should. -/
def Makes (kinds : List Kind) (n : Node) : Prop :=
  n.Everywhere Nested ∧ ∃ k ∈ kinds, n.kind = .java k

/-- The nodes among the children are of some of the kinds, and nest as they should. -/
def Holds (kinds : List Kind) (es : List Element) : Prop :=
  ∀ c, .node c ∈ es → Makes kinds c

section
variable {kinds kinds' : List Kind} {n : Node} {es es' : List Element}

theorem Makes.mono (h : Makes kinds n) (hsub : ∀ k ∈ kinds, k ∈ kinds') : Makes kinds' n := by
  obtain ⟨hn, k, hk, hkind⟩ := h
  exact ⟨hn, k, hsub k hk, hkind⟩

theorem makes_with (h : Makes kinds n) (lead : String) (markers : Markers) :
    Makes kinds { n with lead, markers } := by
  obtain ⟨hn, k, hk, hkind⟩ := h
  obtain ⟨hself, hbelow⟩ := everywhere_iff.1 hn
  exact ⟨everywhere_iff.2 ⟨hself, hbelow⟩, k, hk, hkind⟩

theorem holds_nil : Holds kinds [] :=
  nofun

theorem holds_append (h : Holds kinds es) (h' : Holds kinds es') : Holds kinds (es ++ es') :=
  fun c hc => (List.mem_append.1 hc).elim (h c) (h' c)

theorem holds_token (t : Token) : Holds kinds [.token t] := by
  intro c hc
  cases List.mem_singleton.1 hc

theorem holds_node (h : Makes kinds n) : Holds kinds [.node n] := by
  intro c hc
  cases List.mem_singleton.1 hc
  exact h

theorem holds_items {items : List Node} (h : ∀ n ∈ items, Makes kinds n) :
    Holds kinds (items.map .node) :=
  fun c hc => h c (by simpa using hc)

theorem makes_hoisted {k : Kind} (h : Holds k.holds es) :
    Makes [k] (Node.hoisted (.java k) es) := by
  have hkind := Parser.hoisted_kind (.java k) es
  have hchildren : Holds k.holds (Node.hoisted (.java k) es).children := by
    intro c hc
    obtain ⟨d, hd, rfl | rfl⟩ := mem_children_hoisted hc
    · exact h c hd
    · exact makes_with (h d hd) "" d.markers
  refine ⟨everywhere_iff.2 ⟨fun kind hkind' c hc => ?_, fun c hc => (hchildren c hc).1⟩, k,
    List.mem_singleton_self k, hkind⟩
  cases hkind.symm.trans hkind'
  exact (hchildren c hc).2

end

/-! ### Ways to combine parsers -/

namespace Parser

variable {α β : Type} {P : α → Prop} {Q : β → Prop} {kinds kinds' : List Kind}

/-- What the parser gives satisfies the predicate. -/
def Gives (P : α → Prop) (p : Parser α) : Prop :=
  ∀ t a u, p t = .ok (a, u) → P a

theorem gives_pure {a : α} (h : P a) : Gives P (pure a) := by
  intro t b u hrun
  cases hrun
  exact h

theorem gives_any (p : Parser α) : Gives (fun _ => True) p :=
  fun _ _ _ _ => trivial

theorem gives_fail {error : Nat → ParseError} : Gives P (fail error : Parser α) :=
  fun _ _ _ h => absurd h fail_run

theorem gives_expected {wanted : Wanted} : Gives P (expected wanted : Parser α) :=
  fun _ _ _ h => absurd h expected_run

theorem Gives.bind {p : Parser α} {f : α → Parser β} (hp : Gives P p)
    (hf : ∀ a, P a → Gives Q (f a)) : Gives Q (p >>= f) := by
  intro t b u h
  obtain ⟨a, v, ha, h⟩ := bind_run.1 h
  exact hf a (hp _ _ _ ha) _ _ _ h

theorem Gives.cond {c : Parser Bool} {p q : Parser α} (hp : Gives P p) (hq : Gives P q) :
    Gives P (do if ← c then p else q) := by
  intro t a u h
  obtain ⟨_, h | h⟩ := cond_run h
  · exact hp _ _ _ h
  · exact hq _ _ _ h

theorem Gives.ite {c : Bool} {p q : Parser α} (hp : Gives P p) (hq : Gives P q) :
    Gives P (if c then p else q) := by
  cases c
  · exact hq
  · exact hp

theorem Gives.imp {P' : α → Prop} {p : Parser α} (h : Gives P p) (himp : ∀ a, P a → P' a) :
    Gives P' p :=
  fun _ _ _ hrun => himp _ (h _ _ _ hrun)

theorem Gives.among {p : Parser Node} (h : Gives (Makes kinds) p)
    (hsub : ∀ k ∈ kinds, k ∈ kinds') : Gives (Makes kinds') p :=
  h.imp fun _ hn => hn.mono hsub

theorem gives_iterate {step : α → Parser (α × Bool)} {a : α} (ha : P a)
    (hstep : ∀ a, P a → Gives (fun next => P next.1) (step a)) : Gives P (iterate step a) :=
  fun _ _ _ h => iterate_induct (P := fun a _ => P a) (Q := fun a _ => P a)
    (fun ha hrun => hstep _ ha _ _ _ hrun) (fun ha hrun => hstep _ ha _ _ _ hrun) ha h

theorem gives_tok {p : Parser Token} : Gives (Holds kinds) (tok p) :=
  (gives_any p).bind fun t _ => gives_pure (holds_token t)

theorem gives_one {p : Parser Node} (hp : Gives (Makes kinds) p) (hsub : ∀ k ∈ kinds, k ∈ kinds') :
    Gives (Holds kinds') (one p) :=
  hp.bind fun _ hn => gives_pure (holds_node (hn.mono hsub))

/-- What each of the parsers gives holds nodes of these kinds. -/
inductive GivesAll (kinds : List Kind) : List (Parser (List Element)) → Prop where
  | nil : GivesAll kinds []
  | cons {p : Parser (List Element)} {ps : List (Parser (List Element))}
      (h : Gives (Holds kinds) p) (hs : GivesAll kinds ps) : GivesAll kinds (p :: ps)

theorem gives_parts {ps : List (Parser (List Element))} (h : GivesAll kinds ps) :
    Gives (Holds kinds) (parts ps) := by
  induction h with
  | nil => exact gives_pure holds_nil
  | cons hp _ ih =>
      exact hp.bind fun _ hfirst => ih.bind fun _ hothers => gives_pure (holds_append hfirst hothers)

theorem gives_optional {c : Parser Bool} {p : Parser (List Element)} (hp : Gives (Holds kinds) p) :
    Gives (Holds kinds) (optional c p) :=
  Gives.cond hp (gives_pure holds_nil)

theorem gives_manyWhile {c : Parser Bool} {p : Parser (List Element)}
    (hp : Gives (Holds kinds) p) : Gives (Holds kinds) (manyWhile c p) :=
  gives_iterate holds_nil fun _ hdone =>
    Gives.cond (hp.bind fun _ hnext => gives_pure (holds_append hdone hnext)) (gives_pure hdone)

theorem gives_build {k : Kind} {ps : List (Parser (List Element))} (h : GivesAll k.holds ps) :
    Gives (Makes [k]) (build k ps) :=
  (gives_parts h).bind fun _ hes => gives_pure (makes_hoisted hes)

/-! ### Lists of items -/

theorem makes_withSeparators {delimiter : Delimiter} {pairs : List (Node × Option Token)}
    (h : ∀ pair ∈ pairs, Makes kinds pair.1) :
    ∀ n ∈ withSeparators delimiter pairs, Makes kinds n := by
  fun_induction withSeparators delimiter pairs with
  | case1 => exact nofun
  | case2 item rest ih =>
      obtain ⟨hitem, hrest⟩ := List.forall_mem_cons.1 h
      exact List.forall_mem_cons.2 ⟨hitem, ih hrest⟩
  | case3 item token =>
      obtain ⟨hitem, _⟩ := List.forall_mem_cons.1 h
      exact List.forall_mem_cons.2 ⟨makes_with hitem item.lead _, nofun⟩
  | case4 item token rest _ ih =>
      obtain ⟨hitem, hrest⟩ := List.forall_mem_cons.1 h
      exact List.forall_mem_cons.2 ⟨makes_with hitem item.lead _, ih hrest⟩

theorem gives_separated {delimiter : Delimiter} {stop : Parser Bool} {item : Parser Node}
    (hitem : Gives (Makes kinds) item) :
    Gives (fun items => ∀ n ∈ items, Makes kinds n) (separated delimiter stop item) := by
  have hitems : Gives (fun pairs => ∀ pair ∈ pairs, Makes kinds pair.1)
      (iterate (itemStep delimiter stop item) []) := by
    refine gives_iterate nofun fun done hdone => Gives.cond (gives_pure hdone) ?_
    have hmore : ∀ n token?, Makes kinds n →
        ∀ pair ∈ done ++ [(n, token?)], Makes kinds pair.1 := by
      intro n token? hn
      exact List.forall_mem_append.2 ⟨hdone, List.forall_mem_singleton.2 hn⟩
    exact hitem.bind fun n hn => Gives.cond
      ((gives_any _).bind fun token _ => gives_pure (hmore n (some token) hn))
      (gives_pure (hmore n none hn))
  exact hitems.bind fun pairs hpairs => gives_pure (makes_withSeparators hpairs)

theorem gives_commaList {item : Parser Node} (hitem : Gives (Makes kinds) item)
    (hsub : ∀ k ∈ kinds, k ∈ kinds') : Gives (Holds kinds') (commaList item) :=
  (gives_separated hitem).bind fun _ hitems =>
    gives_pure (holds_items fun n hn => (hitems n hn).mono hsub)

theorem gives_delimited {k : Kind} {opening closing : String} {delimiter : Delimiter}
    {item : Parser Node} (hitem : Gives (Makes kinds) item) (hsub : ∀ j ∈ kinds, j ∈ k.holds) :
    Gives (Makes [k]) (delimited k opening closing delimiter item) := by
  refine gives_build (.cons gives_tok (.cons ?_ (.cons gives_tok .nil)))
  exact (gives_separated hitem).bind fun _ hitems =>
    gives_pure (holds_items fun n hn => (hitems n hn).mono hsub)

end Parser

/-! ### Productions -/

namespace Grammar

open Java.Parser

theorem gives_empty : Gives (Makes [.empty]) empty :=
  gives_build (.cons gives_tok .nil)

theorem gives_furtherNames {kinds : List Kind} : Gives (Holds kinds) furtherNames :=
  gives_manyWhile (gives_parts (.cons gives_tok (.cons gives_tok .nil)))

theorem gives_qualifiedName (allowStar : Bool) :
    Gives (Makes [.qualifiedName]) (qualifiedName allowStar) :=
  gives_build (.cons gives_tok (.cons gives_furtherNames (.cons (Gives.ite
    (gives_optional (gives_parts (.cons gives_tok (.cons gives_tok .nil)))) (gives_pure holds_nil))
    .nil)))

/-- Each construct makes nodes of its kinds, and these nest as they should. -/
def NestsAll (g : Grammar) : Prop :=
  ∀ symbol, Gives (Makes symbol.makes) (g symbol)

section
variable {g : Grammar} (hg : NestsAll g)
include hg

theorem gives_construct (symbol : Symbol) {kinds : List Kind}
    (hsub : ∀ k ∈ symbol.makes, k ∈ kinds) : Gives (Holds kinds) (one (g symbol)) :=
  gives_one (hg symbol) hsub

/-! ### Types -/

theorem gives_typeArguments : Gives (Makes [.typeArguments]) (typeArguments g) :=
  gives_delimited (hg .type) (by decide)

theorem gives_typeTree (dimensions : Bool) : Gives (Makes [.typeTree]) (typeTree g dimensions) := by
  refine Gives.cond (gives_build (.cons gives_tok (.cons (gives_optional (gives_parts
    (.cons gives_tok (.cons (gives_construct hg .type (by decide)) .nil)))) .nil))) ?_
  refine gives_build (.cons (Gives.cond gives_tok (gives_parts ?_)) (.cons (Gives.ite
    (gives_manyWhile (gives_parts (.cons gives_tok (.cons gives_tok .nil))))
    (gives_pure holds_nil)) .nil))
  exact .cons gives_tok (.cons gives_furtherNames
    (.cons (gives_optional (gives_one (gives_typeArguments hg) (by decide))) .nil))

theorem gives_typeList {k : Kind} (keyword : String) (hk : .typeTree ∈ k.holds) :
    Gives (Makes [k]) (typeList g k keyword) :=
  gives_build (.cons gives_tok
    (.cons (gives_commaList (hg .type) (List.forall_mem_singleton.2 hk)) .nil))

theorem gives_typeParameter : Gives (Makes [.typeParameter]) (typeParameter g) :=
  gives_build (.cons gives_tok (.cons (gives_optional (gives_parts (.cons gives_tok
    (.cons (gives_construct hg .type (by decide)) (.cons (gives_manyWhile (gives_parts
      (.cons gives_tok (.cons (gives_construct hg .type (by decide)) .nil)))) .nil))))) .nil))

theorem gives_typeParameters : Gives (Makes [.typeParameters]) (typeParameters g) :=
  gives_delimited (gives_typeParameter hg) (by decide)

/-! ### Expressions -/

theorem gives_arguments : Gives (Makes [.arguments]) (arguments g) :=
  gives_delimited (hg .expression) (by decide)

theorem gives_parenthesized : Gives (Makes [.parenthesized]) (parenthesized g) :=
  gives_build (.cons gives_tok (.cons (gives_construct hg .expression (by decide))
    (.cons gives_tok .nil)))

theorem gives_arrayInit : Gives (Makes [.arrayInit]) (arrayInit g) :=
  gives_delimited (Gives.cond ((hg .arrayInit).among (by decide)) (hg .expression)) (by decide)

theorem gives_dimension (sized : Bool) : Gives (Makes [.dimension]) (dimension g sized) :=
  gives_build (.cons gives_tok (.cons (Gives.ite
    (gives_optional (gives_construct hg .expression (by decide))) (gives_pure holds_nil))
    (.cons gives_tok .nil)))

theorem gives_classBody : Gives (Makes [.classBody]) (classBody g) :=
  gives_build (.cons gives_tok (.cons (gives_manyWhile (gives_construct hg .member (by decide)))
    (.cons gives_tok .nil)))

theorem gives_creation : Gives (Makes [.newArray, .newClass]) (creation g) := by
  have hstart : Gives (Holds [.typeTree]) (parts [tok (take "new"), one (typeTree g false)]) :=
    gives_parts (.cons gives_tok (.cons (gives_one (gives_typeTree hg false) (by decide)) .nil))
  refine hstart.bind fun start hstart => ?_
  have hholds : ∀ {kinds : List Kind}, .typeTree ∈ kinds → Holds kinds start :=
    fun hk c hc => (hstart c hc).mono (List.forall_mem_singleton.2 hk)
  refine Gives.cond ((gives_build ?_).among (by decide))
    ((gives_build ?_).among (by decide))
  · exact .cons (gives_pure (hholds (by decide))) (.cons
      (gives_manyWhile (gives_one (gives_dimension hg true) (by decide)))
      (.cons (gives_optional (gives_one (gives_arrayInit hg) (by decide))) .nil))
  · exact .cons (gives_pure (hholds (by decide))) (.cons
      (gives_one (gives_arguments hg) (by decide))
      (.cons (gives_optional (gives_one (gives_classBody hg) (by decide))) .nil))

theorem gives_nameOrCall : Gives (Makes [.methodInvocation, .identifier]) (nameOrCall g) :=
  Gives.cond
    ((gives_build (.cons gives_tok (.cons (gives_one (gives_arguments hg) (by decide)) .nil))).among
      (by decide))
    ((gives_build (.cons gives_tok .nil)).among (by decide))

theorem gives_primary : Gives (Makes expressionKinds) (primary g) :=
  Gives.cond ((gives_build (.cons gives_tok .nil)).among (by decide)) <|
  Gives.cond ((gives_nameOrCall hg).among (by decide)) <|
  Gives.cond ((gives_creation hg).among (by decide)) <|
  Gives.cond ((gives_typeTree hg true).among (by decide)) <|
  Gives.cond ((gives_parenthesized hg).among (by decide)) <|
  Gives.cond ((gives_arrayInit hg).among (by decide)) gives_expected

omit hg in
theorem gives_operand {operand : Node} (h : Makes expressionKinds operand) (kinds : List Kind)
    (hsub : ∀ k ∈ expressionKinds, k ∈ kinds) :
    Gives (Holds kinds) (pure [.node operand] : Parser (List Element)) :=
  gives_pure (holds_node (h.mono hsub))

theorem gives_member {operand : Node} (h : Makes expressionKinds operand) :
    Gives (Makes expressionKinds) (member g operand) := by
  refine (gives_any _).bind fun dot _ => Gives.cond gives_fail ?_
  have hstart : ∀ {kinds : List Kind}, (∀ k ∈ expressionKinds, k ∈ kinds) →
      Holds kinds [.node operand, .token dot] := fun hsub =>
    holds_append (holds_node (h.mono hsub)) (holds_token dot)
  refine Gives.cond ((gives_build (.cons (gives_pure (hstart (by decide))) (.cons gives_tok (.cons
    (gives_one (gives_arguments hg) (by decide)) .nil)))).among (by decide)) ?_
  exact (gives_build (.cons (gives_pure (hstart (by decide))) (.cons gives_tok .nil))).among
    (by decide)

theorem gives_postfixStep {operand : Node} (h : Makes expressionKinds operand) :
    Gives (fun next => Makes expressionKinds next.1) (postfixStep g operand) := by
  refine Gives.cond gives_fail <| Gives.cond gives_fail <| Gives.cond
    ((gives_member hg h).bind fun _ hn => gives_pure hn) <|
    Gives.cond (Gives.bind (P := Makes [.arrayAccess]) (gives_build ?_) fun _ hn =>
      gives_pure (hn.mono (by decide))) <|
    Gives.cond (Gives.bind (P := Makes [.unary]) (gives_build ?_) fun _ hn =>
      gives_pure (hn.mono (by decide))) <| gives_pure h
  · exact .cons (gives_operand h _ (by decide)) (.cons gives_tok (.cons
      (gives_construct hg .expression (by decide)) (.cons gives_tok .nil)))
  · exact .cons (gives_operand h _ (by decide)) (.cons gives_tok .nil)

theorem gives_unary : Gives (Makes expressionKinds) (unary g) := by
  refine Gives.cond ((gives_build ?_).among (by decide)) <|
    Gives.cond ((gives_build ?_).among (by decide)) <|
    (gives_primary hg).bind fun operand h => gives_iterate h fun _ h => gives_postfixStep hg h
  · exact .cons gives_tok (.cons (gives_construct hg .unary (by decide)) .nil)
  · exact .cons gives_tok (.cons (gives_construct hg .type (by decide)) (.cons gives_tok (.cons
      (gives_construct hg .unary (by decide)) .nil)))

omit hg in
theorem gives_binaryOperator {kinds : List Kind} : Gives (Holds kinds) binaryOperator :=
  Gives.cond (gives_parts (.cons gives_tok (.cons (gives_manyWhile gives_tok)
    (.cons (gives_optional gives_tok) .nil)))) gives_tok

theorem gives_operatorStep {left : Node} (h : Makes expressionKinds left) :
    Gives (fun next => Makes expressionKinds next.1) (operatorStep g left) := by
  refine Gives.cond (Gives.bind (P := Makes [.conditional]) (gives_build ?_) fun _ hn =>
      gives_pure (hn.mono (by decide))) <|
    Gives.cond (Gives.bind (P := Makes [.binary]) (gives_build ?_) fun _ hn =>
      gives_pure (hn.mono (by decide))) <|
    Gives.cond (Gives.bind (P := Makes [.binary]) (gives_build ?_) fun _ hn =>
      gives_pure (hn.mono (by decide))) <| gives_pure h
  · exact .cons (gives_operand h _ (by decide)) (.cons gives_tok (.cons
      (gives_construct hg .expression (by decide)) (.cons gives_tok (.cons
        (gives_construct hg .expression (by decide)) .nil))))
  · exact .cons (gives_operand h _ (by decide)) (.cons gives_tok (.cons
      (gives_construct hg .type (by decide)) .nil))
  · exact .cons (gives_operand h _ (by decide)) (.cons gives_binaryOperator (.cons
      (gives_one (gives_unary hg) (by decide)) .nil))

theorem gives_expression : Gives (Makes expressionKinds) (expression g) :=
  (gives_unary hg).bind fun _ h => gives_iterate h fun _ h => gives_operatorStep hg h

/-! ### Statements -/

theorem gives_annotationUse : Gives (Makes [.annotationUse]) (annotationUse g) :=
  gives_build (.cons gives_tok (.cons (gives_one (gives_qualifiedName false) (by decide))
    (.cons (gives_optional (gives_one (gives_arguments hg) (by decide))) .nil)))

theorem gives_modifiers {kinds : List Kind} (hk : .modifiers ∈ kinds) :
    Gives (Holds kinds) (modifiers g) := by
  have hchildren : Gives (Holds Kind.modifiers.holds) (manyWhile modifierAhead do
      if ← sees "@" then one (annotationUse g) else tok (takeIf isModifier .identifier)) :=
    gives_manyWhile (Gives.cond (gives_one (gives_annotationUse hg) (by decide)) gives_tok)
  refine hchildren.bind fun children h => Gives.ite (gives_pure holds_nil) (gives_pure ?_)
  exact holds_node ((makes_hoisted h).mono (List.forall_mem_singleton.2 hk))

theorem gives_namedVariable : Gives (Makes [.namedVariable]) (namedVariable g) :=
  gives_build (.cons gives_tok (.cons
    (gives_manyWhile (gives_one (gives_dimension hg false) (by decide))) (.cons
      (gives_optional (gives_parts (.cons gives_tok (.cons (Gives.cond
        (gives_one (gives_arrayInit hg) (by decide))
        (gives_construct hg .expression (by decide))) .nil)))) .nil)))

theorem gives_declarators : Gives (Makes [.declarators]) (declarators g) :=
  gives_build (.cons (gives_commaList (gives_namedVariable hg) (by decide)) .nil)

theorem gives_localVariable : Gives (Makes [.variableDeclaration]) (localVariable g) :=
  gives_build (.cons (gives_modifiers hg (by decide)) (.cons
    (gives_one (gives_typeTree hg true) (by decide)) (.cons
      (gives_one (gives_declarators hg) (by decide)) (.cons gives_tok .nil))))

theorem gives_block : Gives (Makes [.block]) (block g) :=
  gives_build (.cons gives_tok (.cons (gives_manyWhile (gives_construct hg .statement (by decide)))
    (.cons gives_tok .nil)))

theorem gives_resource : Gives (Makes [.resource]) (resource g) :=
  Gives.cond
    (gives_build (.cons (gives_modifiers hg (by decide)) (.cons
      (gives_one (gives_typeTree hg true) (by decide)) (.cons gives_tok (.cons gives_tok (.cons
        (gives_construct hg .expression (by decide)) .nil))))))
    (gives_build (.cons (gives_one (gives_expression hg) (by decide)) .nil))

theorem gives_catchClause : Gives (Makes [.catchClause]) (catchClause g) :=
  gives_build (.cons gives_tok (.cons gives_tok (.cons (gives_modifiers hg (by decide)) (.cons
    (gives_one (gives_typeTree hg true) (by decide)) (.cons (gives_manyWhile (gives_parts
      (.cons gives_tok (.cons (gives_construct hg .type (by decide)) .nil)))) (.cons gives_tok
        (.cons gives_tok (.cons (gives_one (gives_block hg) (by decide)) .nil))))))))

theorem gives_finallyClause : Gives (Makes [.finallyClause]) (finallyClause g) :=
  gives_build (.cons gives_tok (.cons (gives_one (gives_block hg) (by decide)) .nil))

theorem gives_tryStatement : Gives (Makes [.tryStatement]) (tryStatement g) := by
  have hresources : Gives (Holds Kind.tryStatement.holds) (optional (sees "(")
      (one (delimited .tryResources "(" ")" .semicolon (resource g)))) :=
    gives_optional (gives_one (gives_delimited (k := .tryResources) (gives_resource hg) (by decide))
      (by decide))
  have hhandlers : Gives (Holds Kind.tryStatement.holds)
      (parts [manyWhile (sees "catch") (one (catchClause g)),
        optional (sees "finally") (one (finallyClause g))]) :=
    gives_parts (.cons (gives_manyWhile (gives_one (gives_catchClause hg) (by decide)))
      (.cons (gives_optional (gives_one (gives_finallyClause hg) (by decide))) .nil))
  have hkeyword : Gives (Holds Kind.tryStatement.holds) (tok (take "try")) := gives_tok
  have hbody : Gives (Holds Kind.tryStatement.holds) (one (block g)) :=
    gives_one (gives_block hg) (by decide)
  refine hkeyword.bind fun keyword hkeyword => hresources.bind fun resources hresources => ?_
  refine hbody.bind fun body hbody => ?_
  refine hhandlers.bind fun handlers hhandlers => Gives.ite gives_expected (gives_pure ?_)
  exact makes_hoisted (holds_append (holds_append (holds_append hkeyword hresources) hbody) hhandlers)

theorem gives_valueStatement {k : Kind} (keyword : String)
    (hk : ∀ j ∈ expressionKinds, j ∈ k.holds) : Gives (Makes [k]) (valueStatement g k keyword) :=
  gives_build (.cons gives_tok (.cons (gives_optional (gives_construct hg .expression hk))
    (.cons gives_tok .nil)))

theorem gives_ifStatement : Gives (Makes [.ifStatement]) (ifStatement g) :=
  gives_build (.cons gives_tok (.cons (gives_one (gives_parenthesized hg) (by decide)) (.cons
    (gives_construct hg .statement (by decide)) (.cons (gives_optional (gives_parts
      (.cons gives_tok (.cons (gives_construct hg .statement (by decide)) .nil)))) .nil))))

theorem gives_whileStatement : Gives (Makes [.whileStatement]) (whileStatement g) :=
  gives_build (.cons gives_tok (.cons (gives_one (gives_parenthesized hg) (by decide)) (.cons
    (gives_construct hg .statement (by decide)) .nil)))

omit hg in
theorem gives_jumpStatement : Gives (Makes [.jumpStatement]) jumpStatement :=
  gives_build (.cons gives_tok (.cons (gives_optional gives_tok) (.cons gives_tok .nil)))

theorem gives_expressionStatement : Gives (Makes [.expressionStatement])
    (build .expressionStatement [one (expression g), tok (take ";")]) :=
  gives_build (.cons (gives_one (gives_expression hg) (by decide)) (.cons gives_tok .nil))

omit hg in
theorem gives_rejectStatement {P : Node → Prop} : Gives P rejectStatement :=
  (gives_any _).bind fun _ _ => gives_fail

theorem gives_statement : Gives (Makes statementKinds) (statement g) :=
  Gives.cond ((gives_block hg).among (by decide)) <|
  Gives.cond (gives_empty.among (by decide)) <|
  Gives.cond ((gives_valueStatement hg "return" (by decide)).among (by decide)) <|
  Gives.cond ((gives_valueStatement hg "throw" (by decide)).among (by decide)) <|
  Gives.cond (gives_jumpStatement.among (by decide)) <|
  Gives.cond ((gives_ifStatement hg).among (by decide)) <|
  Gives.cond ((gives_whileStatement hg).among (by decide)) <|
  Gives.cond ((gives_tryStatement hg).among (by decide)) <|
  Gives.cond gives_rejectStatement <|
  Gives.cond gives_fail <|
  Gives.cond ((gives_localVariable hg).among (by decide)) <|
  (gives_expressionStatement hg).among (by decide)

/-! ### Declarations -/

theorem gives_enumConstant : Gives (Makes [.enumConstant]) (enumConstant g) :=
  gives_build (.cons (gives_modifiers hg (by decide)) (.cons gives_tok (.cons
    (gives_optional (gives_one (gives_arguments hg) (by decide))) (.cons
      (gives_optional (gives_one (gives_classBody hg) (by decide))) .nil))))

omit hg in
theorem holds_terminated {kinds : List Kind} {constants : List Node} (semicolon : Token)
    (h : ∀ n ∈ constants, Makes kinds n) : Holds kinds (terminated constants semicolon) := by
  rw [terminated]
  split
  · rename_i last hlast
    refine holds_items (List.forall_mem_append.2 ⟨fun n hn => h n (List.dropLast_subset _ hn),
      List.forall_mem_singleton.2 ?_⟩)
    exact makes_with (h last (List.mem_of_getLast? hlast)) last.lead _
  · exact holds_token semicolon

theorem gives_enumConstants : Gives (Makes [.enumConstants]) (enumConstants g) :=
  (gives_separated (gives_enumConstant hg)).bind fun _ hconstants => Gives.cond
    ((gives_any _).bind fun semicolon _ =>
      gives_pure (makes_hoisted (holds_terminated semicolon hconstants)))
    (gives_pure (makes_hoisted (holds_items hconstants)))

theorem gives_enumBody : Gives (Makes [.enumBody]) (enumBody g) :=
  gives_build (.cons gives_tok (.cons (gives_one (gives_enumConstants hg) (by decide)) (.cons
    (gives_manyWhile (gives_construct hg .member (by decide))) (.cons gives_tok .nil))))

theorem gives_classDeclaration {mods : List Element}
    (hmods : Holds Kind.classDeclaration.holds mods) :
    Gives (Makes [.classDeclaration]) (classDeclaration g mods) := by
  refine Gives.cond gives_fail (Gives.cond gives_fail ((gives_any _).bind fun isEnum _ => ?_))
  exact gives_build (.cons (gives_pure hmods) (.cons gives_tok (.cons gives_tok (.cons
    (gives_optional (gives_one (gives_typeParameters hg) (by decide))) (.cons
      (gives_optional (gives_one (gives_typeList hg _ (by decide)) (by decide))) (.cons
        (gives_optional (gives_one (gives_typeList hg _ (by decide)) (by decide))) (.cons
          (Gives.ite (gives_one (gives_enumBody hg) (by decide))
            (gives_one (gives_classBody hg) (by decide))) .nil)))))))

theorem gives_parameter : Gives (Makes [.parameter]) (parameter g) :=
  gives_build (.cons (gives_modifiers hg (by decide)) (.cons
    (gives_one (gives_typeTree hg true) (by decide)) (.cons (gives_optional gives_tok)
      (.cons gives_tok (.cons (gives_manyWhile (gives_one (gives_dimension hg false) (by decide)))
        .nil)))))

theorem gives_methodFrom {start : List Element} (hstart : Holds Kind.methodDeclaration.holds start) :
    Gives (Makes [.methodDeclaration]) (methodFrom g start) := by
  have hparameters : Gives (Makes [.parameters])
      (delimited .parameters "(" ")" .comma (parameter g)) :=
    gives_delimited (gives_parameter hg) (by decide)
  exact gives_build (.cons (gives_pure hstart) (.cons (gives_one hparameters (by decide)) (.cons
    (gives_optional (gives_one (gives_typeList hg _ (by decide)) (by decide))) (.cons
      (gives_optional gives_fail) (.cons
        (Gives.cond (gives_one (gives_block hg) (by decide)) gives_tok) .nil)))))

theorem gives_memberFrom {mods : List Element} (hmods : Holds [.modifiers] mods) :
    Gives (Makes [.methodDeclaration, .variableDeclaration]) (memberFrom g mods) := by
  have hstart : Gives (Holds [.modifiers, .typeParameters])
      (parts [pure mods, optional (sees "<") (one (typeParameters g))]) :=
    gives_parts (.cons (gives_pure fun c hc => (hmods c hc).mono (by decide)) (.cons
      (gives_optional (gives_one (gives_typeParameters hg) (by decide))) .nil))
  have hname : Gives (Holds []) (tok takeIdentifier) := gives_tok
  have htype : Gives (Holds [.typeTree]) (one (typeTree g true)) :=
    gives_one (gives_typeTree hg true) (by decide)
  refine hstart.bind fun start hstart => Gives.cond (hname.bind fun name hname => ?_)
    (htype.bind fun type htype => Gives.cond (hname.bind fun name hname => ?_) ?_)
  · have hfront : Holds Kind.methodDeclaration.holds (start ++ name) :=
      holds_append (fun c hc => (hstart c hc).mono (by decide))
        fun c hc => (hname c hc).mono (by decide)
    exact (gives_methodFrom hg hfront).among (by decide)
  · have hfront : Holds Kind.methodDeclaration.holds (start ++ type ++ name) :=
      holds_append (holds_append (fun c hc => (hstart c hc).mono (by decide))
        fun c hc => (htype c hc).mono (by decide)) fun c hc => (hname c hc).mono (by decide)
    exact (gives_methodFrom hg hfront).among (by decide)
  · have hfront : Holds Kind.variableDeclaration.holds (start ++ type) :=
      holds_append (fun c hc => (hstart c hc).mono (by decide))
        fun c hc => (htype c hc).mono (by decide)
    exact (gives_build (.cons (gives_pure hfront) (.cons
      (gives_one (gives_declarators hg) (by decide)) (.cons gives_tok .nil)))).among (by decide)

theorem gives_initializer : Gives (Makes [.initializerBlock])
    (build .initializerBlock [optional (sees "static") (tok (take "static")), one (block g)]) :=
  gives_build (.cons (gives_optional gives_tok) (.cons (gives_one (gives_block hg) (by decide)) .nil))

theorem gives_typeMember : Gives (Makes memberKinds) (typeMember g) := by
  refine Gives.cond (gives_empty.among (by decide)) <|
    Gives.cond ((gives_initializer hg).among (by decide)) <|
    (gives_modifiers hg (List.mem_singleton_self _)).bind fun mods hmods => Gives.cond ?_ ?_
  · have hfront : Holds Kind.classDeclaration.holds mods :=
      fun c hc => (hmods c hc).mono (by decide)
    exact (gives_classDeclaration hg hfront).among (by decide)
  · exact (gives_memberFrom hg hmods).among (by decide)

theorem gives_topLevel : Gives (Makes [.empty, .classDeclaration]) (topLevel g) := by
  have hmods : Gives (Holds Kind.classDeclaration.holds) (modifiers g) :=
    gives_modifiers hg (by decide)
  refine Gives.cond (gives_empty.among (by decide)) (hmods.bind fun mods hmods => ?_)
  exact (gives_classDeclaration hg hmods).among (by decide)

theorem gives_compilationUnit : Gives (Makes [.compilationUnit]) (compilationUnit g) := by
  have hpackage : Gives (Makes [.packageClause]) packageClause :=
    gives_build (.cons gives_tok (.cons (gives_one (gives_qualifiedName false) (by decide))
      (.cons gives_tok .nil)))
  have himport : Gives (Makes [.importClause]) importClause :=
    gives_build (.cons gives_tok (.cons (gives_optional gives_tok) (.cons
      (gives_one (gives_qualifiedName true) (by decide)) (.cons gives_tok .nil))))
  exact gives_build (.cons (gives_optional (gives_one hpackage (by decide))) (.cons
    (gives_manyWhile (gives_one himport (by decide))) (.cons
      (gives_manyWhile (gives_one (gives_topLevel hg) (by decide))) (.cons
        ((gives_any _).bind fun _ _ => gives_pure (holds_token _)) .nil))))

theorem nestsAll_production : NestsAll (production g) := by
  intro symbol
  cases symbol with
  | type => exact gives_typeTree hg true
  | expression => exact gives_expression hg
  | unary => exact gives_unary hg
  | arrayInit => exact gives_arrayInit hg
  | statement => exact gives_statement hg
  | member => exact gives_typeMember hg

end

theorem nestsAll_nested (depth : Nat) : NestsAll (nested depth) := by
  induction depth with
  | zero => exact fun _ => gives_fail
  | succ depth ih => exact nestsAll_production ih

end Grammar

/-! ### Units -/

/-- In a unit the nodes nest as the table of kinds says. -/
theorem nested_of_parseUnit {source : String} {unit : Node} (h : parseUnit source = .ok unit) :
    unit.Everywhere Nested := by
  obtain ⟨tokens, _, h⟩ := bind_eq_ok.1 h
  obtain ⟨⟨unit, u⟩, hunit, h⟩ := bind_eq_ok.1 h
  cases h
  exact (Grammar.gives_compilationUnit (Grammar.nestsAll_nested _) _ _ _ hunit).1

theorem children_untyped_iff {n : Node} {P : Node → Prop} :
    (∀ c, .node c ∈ n.untyped.children → P c) ↔ ∀ c, .node c ∈ n.children → P c.untyped := by
  rw [children_untyped, untypedList_eq_map]
  constructor
  · exact fun h c hc => h c.untyped (List.mem_map_of_mem (f := Element.untyped) hc)
  · intro h c hc
    obtain ⟨e, he, heq⟩ := List.mem_map.1 hc
    cases e with
    | token t => cases heq
    | node d =>
        cases heq
        exact h d he

theorem nested_node_untyped {n : Node} : Nested n.untyped ↔ Nested n := by
  simp only [Nested, kind_untyped, children_untyped_iff]

theorem nested_untyped {n : Node} : n.untyped.Everywhere Nested ↔ n.Everywhere Nested := by
  induction n using Node.induction_on with
  | step n ih =>
      rw [everywhere_iff, everywhere_iff (n := n), children_untyped_iff, nested_node_untyped]
      exact and_congr_right fun _ => forall₂_congr fun c hc => ih c hc

theorem nested_attributeUnit {source : String} {unit : Node} (h : parseUnit source = .ok unit)
    (symbols : SymbolTable) : (attributeUnit symbols unit).Everywhere Nested := by
  rw [← nested_untyped, untyped_attributeUnit h]
  exact nested_of_parseUnit h

/-! ### Places -/

section
variable {root : Node} (hnested : root.Everywhere Nested) (hunit : root.kind = .java .compilationUnit)
include hnested hunit

/-- A node below the root stands in one of a kind that holds its own. -/
theorem exists_holds {cursor : Cursor} {n : Node} (h : Stands root cursor n) :
    ∃ k, n.kind = .java k ∧ ∀ frame ∈ cursor.head?,
      ∃ parentKind, frame.node.kind = .java parentKind ∧ k ∈ parentKind.holds := by
  induction h with
  | root => exact ⟨_, hunit, nofun⟩
  | @child cursor parent n before behind h hchildren ih =>
      obtain ⟨parentKind, hparent, -⟩ := ih
      obtain ⟨k, hk, hkind⟩ := hnested _ h.mem _ hparent n (by simp [hchildren])
      refine ⟨k, hkind, ?_⟩
      rintro _ ⟨⟩
      exact ⟨parentKind, hparent, hk⟩

theorem kind_of_parent {cursor : Cursor} {parent n : Node} {index : Nat} {k : Kind}
    (h : Stands root (⟨parent, index⟩ :: cursor) n) (hkind : n.kind = .java k) :
    ∃ parentKind, parent.kind = .java parentKind ∧ k ∈ parentKind.holds := by
  obtain ⟨k', hkind', hheld⟩ := exists_holds hnested hunit h
  cases hkind.symm.trans hkind'
  exact hheld _ rfl

end

end Codemod.Java
