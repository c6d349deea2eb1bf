import Codemod.Java.Unit
import Codemod.Proofs.Java.Units

/-!
No identifier stands behind a literal. What is followed through the grammar is whether the last
token that was taken may be a literal.
-/

namespace Codemod.Java

open Codemod.Tree Codemod.Java.Parser

/-- No identifier stands behind a literal among the tokens, where `pending` says that a literal
stands in front of them. -/
def Apart : Bool → List Token → Prop
  | _, [] => True
  | pending, t :: ts => (t.kind = .identifier → pending = false) ∧ Apart (t.kind == .literal) ts

/-- The last one of the tokens is a literal, or there is none and one stands in front. -/
def pendingBehind : Bool → List Token → Bool
  | pending, [] => pending
  | _, t :: ts => pendingBehind (t.kind == .literal) ts

theorem pendingBehind_append (pending : Bool) (ts us : List Token) :
    pendingBehind pending (ts ++ us) = pendingBehind (pendingBehind pending ts) us := by
  induction ts generalizing pending with
  | nil => rfl
  | cons t ts ih => exact ih _

theorem apart_append {pending : Bool} {ts us : List Token} :
    Apart pending (ts ++ us) ↔ Apart pending ts ∧ Apart (pendingBehind pending ts) us := by
  induction ts generalizing pending with
  | nil => exact ⟨fun h => ⟨trivial, h⟩, And.right⟩
  | cons t ts ih => rw [List.cons_append, Apart, Apart, pendingBehind, ih, and_assoc]

theorem Apart.weaken {pending pending' : Bool} {ts : List Token} (h : Apart pending ts)
    (hpending : pending' = true → pending = true) : Apart pending' ts := by
  cases ts with
  | nil => trivial
  | cons t ts =>
      refine ⟨fun hkind => ?_, h.2⟩
      rw [← Bool.not_eq_true]
      intro htrue
      rw [h.1 hkind] at hpending
      exact absurd (hpending htrue) (by decide)

theorem pendingBehind_mono {pending pending' : Bool} {ts : List Token}
    (hpending : pending' = true → pending = true) (h : pendingBehind pending' ts = true) :
    pendingBehind pending ts = true := by
  cases ts with
  | nil => exact hpending h
  | cons t ts => exact h

/-- Where a literal may stand in front only if `b` says so, the tokens between two states are taken
apart, and the last one may be a literal only if `c` says so. -/
def Tokens.Walks (b c : Bool) (start finish : Tokens) : Prop :=
  ∃ taken, start.Passes taken finish ∧ Apart b taken ∧ (pendingBehind b taken = true → c = true)

namespace Tokens.Walks

variable {b c d : Bool} {t u v : Tokens}

theorem refl (b : Bool) (t : Tokens) : t.Walks b b t :=
  ⟨[], .refl t, trivial, id⟩

theorem weaken {b' c' : Bool} (h : t.Walks b c u) (hb : b' = true → b = true)
    (hc : c = true → c' = true) : t.Walks b' c' u := by
  obtain ⟨taken, hpasses, hapart, hbehind⟩ := h
  exact ⟨taken, hpasses, hapart.weaken hb, fun hpending => hc (hbehind (pendingBehind_mono hb hpending))⟩

theorem trans (h : t.Walks b c u) (h' : u.Walks c d v) : t.Walks b d v := by
  obtain ⟨xs, hxs, hapart, hbehind⟩ := h
  obtain ⟨ys, hys, hapart', hbehind'⟩ := h'
  refine ⟨xs ++ ys, hxs.trans hys, apart_append.2 ⟨hapart, hapart'.weaken hbehind⟩, fun hpending => ?_⟩
  rw [pendingBehind_append] at hpending
  exact hbehind' (pendingBehind_mono hbehind hpending)

end Tokens.Walks

namespace Parser

variable {α β : Type}

/-- Each run of the parser walks from the one state to the other. -/
def Flow (b c : Bool) (p : Parser α) : Prop :=
  ∀ t a u, p t = .ok (a, u) → t.Walks b c u

variable {b c d : Bool}

theorem Flow.weaken {b' c' : Bool} {p : Parser α} (h : Flow b c p) (hb : b' = true → b = true)
    (hc : c = true → c' = true) : Flow b' c' p :=
  fun t a u hrun => (h t a u hrun).weaken hb hc

theorem Flow.open {p : Parser α} (h : Flow b false p) : Flow b true p :=
  h.weaken id fun hfalse => absurd hfalse (by decide)

theorem Flow.bind {p : Parser α} {k : α → Parser β} (hp : Flow b c p) (hk : ∀ a, Flow c d (k a)) :
    Flow b d (p >>= k) := by
  intro t x v hrun
  obtain ⟨a, u, ha, hx⟩ := bind_run.1 hrun
  exact (hp t a u ha).trans (hk a u x v hx)

theorem flow_pure (a : α) : Flow b b (pure a) := by
  intro t x u h
  obtain ⟨_, rfl⟩ := pure_run.1 h
  exact .refl b u

theorem flow_fail {error : Nat → ParseError} : Flow b c (fail error : Parser α) :=
  fun _ _ _ h => absurd h fail_run

theorem flow_expected {wanted : Wanted} : Flow b c (expected wanted : Parser α) :=
  fun _ _ _ h => absurd h expected_run

theorem flow_peeks {p : Parser Bool} (hp : Peeks p) : Flow b b p := by
  intro t x u h
  cases hp h
  exact .refl b t

theorem Flow.ite {cond : Bool} {p q : Parser α} (hp : Flow b c p) (hq : Flow b c q) :
    Flow b c (if cond then p else q) := by
  cases cond
  · exact hq
  · exact hp

theorem Flow.cond {cond : Parser Bool} {p q : Parser α} (hc : Peeks cond) (hp : Flow b c p)
    (hq : Flow b c q) : Flow b c (do if ← cond then p else q) :=
  (flow_peeks hc).bind fun _ => hp.ite hq

theorem flow_takeIf {p : Token → Bool} {wanted : Wanted}
    (hp : ∀ t, p t = true → t.kind ≠ .identifier ∧ t.kind ≠ .literal) :
    Flow b false (takeIf p wanted) := by
  intro t a u h
  obtain ⟨hpasses, ha⟩ := takeIf_passes h
  obtain ⟨hidentifier, hliteral⟩ := hp a ha
  exact ⟨[a], hpasses, ⟨fun h => absurd h hidentifier, trivial⟩,
    fun hpending => absurd (beq_iff_eq.1 hpending) hliteral⟩

theorem flow_takeWord {p : Token → Bool} {wanted : Wanted}
    (hp : ∀ t, p t = true → t.kind ≠ .literal) : Flow false false (takeIf p wanted) := by
  intro t a u h
  obtain ⟨hpasses, ha⟩ := takeIf_passes h
  exact ⟨[a], hpasses, ⟨fun _ => rfl, trivial⟩,
    fun hpending => absurd (beq_iff_eq.1 hpending) (hp a ha)⟩

theorem flow_iterate {step : α → Parser (α × Bool)} (hstep : ∀ a, Flow b b (step a)) (a : α) :
    Flow b b (iterate step a) := by
  intro t x u h
  exact iterate_induct (P := fun _ v => t.Walks b b v) (Q := fun _ v => t.Walks b b v)
    (fun hwalks hrun => hwalks.trans (hstep _ _ _ _ hrun))
    (fun hwalks hrun => hwalks.trans (hstep _ _ _ _ hrun)) (.refl b t) h

section
variable {p : Parser (List Element)} {ps : List (Parser (List Element))} {cond : Parser Bool}

theorem Flow.many (hc : Peeks cond) (hp : Flow b b p) : Flow b b (manyWhile cond p) :=
  flow_iterate (fun _ => Flow.cond hc (hp.bind fun _ => flow_pure _) (flow_pure _)) []

theorem Flow.optional (hc : Peeks cond) (hp : Flow b c p) (hle : b = true → c = true) :
    Flow b c (optional cond p) :=
  Flow.cond hc hp ((flow_pure []).weaken id hle)

theorem Flow.one {p : Parser Node} (hp : Flow b c p) : Flow b c (one p) :=
  hp.bind fun _ => flow_pure _

theorem Flow.tok {p : Parser Token} (hp : Flow b c p) : Flow b c (tok p) :=
  hp.bind fun _ => flow_pure _

/-- Parts that are walked one behind another. -/
inductive FlowAll : Bool → Bool → List (Parser (List Element)) → Prop where
  | nil {b : Bool} : FlowAll b b []
  | cons {b c d : Bool} {p : Parser (List Element)} {ps : List (Parser (List Element))}
      (h : Flow b c p) (hs : FlowAll c d ps) : FlowAll b d (p :: ps)

theorem FlowAll.parts (h : FlowAll b c ps) : Flow b c (parts ps) := by
  induction h with
  | nil => exact flow_pure []
  | cons hp _ ih => exact hp.bind fun _ => ih.bind fun _ => flow_pure _

theorem FlowAll.build (h : FlowAll b c ps) (kind : Kind) : Flow b c (build kind ps) :=
  h.parts.bind fun _ => flow_pure _

end

/-! ### Signs, identifiers and lists -/

theorem flow_sign {text : String} {wanted : Wanted} :
    Flow b false (takeIf (isSign · text) wanted) :=
  flow_takeIf fun t h => by
    simp only [isSign, Bool.and_eq_true, Bool.or_eq_true, beq_iff_eq] at h
    rcases h.1 with hkind | hkind <;> simp [hkind]

theorem flow_oneOf {texts : List String} {wanted : Wanted} :
    Flow b false (takeIf (isOneOf texts) wanted) :=
  flow_takeIf fun t h => by
    obtain ⟨text, _, h⟩ := List.any_eq_true.1 h
    simp only [isSign, Bool.and_eq_true, Bool.or_eq_true, beq_iff_eq] at h
    rcases h.1 with hkind | hkind <;> simp [hkind]

theorem flow_take (text : String) : Flow b false (tok (take text)) :=
  flow_sign.tok

theorem flow_takeIdentifier : Flow false false (tok takeIdentifier) :=
  (flow_takeWord fun t h => by simp [beq_iff_eq.1 h]).tok

theorem flow_separated {delimiter : Delimiter} {stop : Parser Bool} {item : Parser Node}
    (hstop : Peeks stop) (hitem : Flow false c item) :
    Flow false c (separated delimiter stop item) := by
  refine Flow.bind ?_ fun _ => flow_pure _
  intro t x u h
  refine iterate_induct (P := fun _ v => t.Walks false false v) (Q := fun _ v => t.Walks false c v)
    ?_ ?_ (.refl false t) h
  · intro done v done' w hwalks hrun
    obtain ⟨⟨⟩, _⟩ | ⟨n, x, hn, ⟨_, token, htoken, _⟩ | ⟨⟨⟩, _⟩⟩ := itemStep_run hstop hrun
    exact (hwalks.trans (hitem _ _ _ hn)).trans (flow_sign _ _ _ htoken)
  · intro done v done' w hwalks hrun
    obtain ⟨_, _, rfl⟩ | ⟨n, x, hn, ⟨⟨⟩, _⟩ | ⟨_, rfl, _⟩⟩ := itemStep_run hstop hrun
    · exact hwalks.weaken id fun hfalse => absurd hfalse (by decide)
    · exact hwalks.trans (hitem _ _ _ hn)

theorem flow_delimited {k : Kind} {opening closing : String} {delimiter : Delimiter}
    {item : Parser Node} (hitem : Flow false c item) :
    Flow b false (delimited k opening closing delimiter item) :=
  (FlowAll.cons (flow_take opening) (.cons
    ((flow_separated peeks_sees hitem).bind fun _ => flow_pure _)
    (.cons (flow_take closing) .nil))).build k

theorem flow_commaList {item : Parser Node} (hitem : Flow false c item) :
    Flow false c (commaList item) :=
  (flow_separated peeks_pure hitem).bind fun _ => flow_pure _

end Parser

namespace Grammar

variable {b c : Bool}

theorem flow_furtherNames : Flow false false furtherNames :=
  Flow.many peeks_dotThen (FlowAll.cons (flow_take ".") (.cons flow_takeIdentifier .nil)).parts

theorem flow_qualifiedName (allowStar : Bool) : Flow false false (qualifiedName allowStar) :=
  (FlowAll.cons flow_takeIdentifier (.cons flow_furtherNames (.cons (Flow.ite
    (Flow.optional peeks_dotThen (FlowAll.cons (flow_take ".") (.cons (flow_take "*") .nil)).parts id)
    (flow_pure [])) .nil))).build _

/-- A literal may stand at the end of expressions and nowhere else. -/
structure Flows (g : Grammar) : Prop where
  type : Flow false false (g .type)
  expression : Flow false true (g .expression)
  unary : Flow false true (g .unary)
  arrayInit : Flow false false (g .arrayInit)
  statement : Flow false false (g .statement)
  member : Flow false false (g .member)

section
variable {g : Grammar} (hg : Flows g)
include hg

/-! ### Types -/

theorem flow_wildcard : Flow false false (wildcard g) :=
  (FlowAll.cons (flow_take "?") (.cons (Flow.optional peeks_test
    (FlowAll.cons flow_oneOf.tok (.cons hg.type.one .nil)).parts id) .nil)).build _

theorem flow_typeArguments : Flow b false (typeArguments g) :=
  flow_delimited hg.type

theorem flow_elementType : Flow false false (elementType g) := by
  refine Flow.cond peeks_test (Flow.tok (flow_takeWord fun t h => ?_)) (FlowAll.parts ?_)
  · simp only [isPrimitive, Bool.and_eq_true, beq_iff_eq] at h
    simp [h.1]
  · exact .cons flow_takeIdentifier (.cons flow_furtherNames
      (.cons (Flow.optional peeks_sees (flow_typeArguments hg).one id) .nil))

theorem flow_typeTree (dimensions : Bool) : Flow false false (typeTree g dimensions) :=
  Flow.cond peeks_sees (flow_wildcard hg)
    ((FlowAll.cons (flow_elementType hg) (.cons (Flow.ite (Flow.many peeks_emptyBrackets
      (FlowAll.cons (flow_take "[") (.cons (flow_take "]") .nil)).parts) (flow_pure [])) .nil)).build _)

theorem flow_typeList (k : Kind) (keyword : String) : Flow false false (typeList g k keyword) :=
  (FlowAll.cons (flow_take keyword) (.cons (flow_commaList hg.type) .nil)).build k

theorem flow_typeParameter : Flow false false (typeParameter g) :=
  (FlowAll.cons flow_takeIdentifier (.cons (Flow.optional peeks_sees
    (FlowAll.cons (flow_take "extends") (.cons hg.type.one (.cons (Flow.many peeks_sees
      (FlowAll.cons (flow_take "&") (.cons hg.type.one .nil)).parts) .nil))).parts id) .nil)).build _

theorem flow_typeParameters : Flow b false (typeParameters g) :=
  flow_delimited (flow_typeParameter hg)

/-! ### Expressions -/

omit hg in
theorem flow_takePunct {p : Token → Bool} {wanted : Wanted}
    (hp : ∀ t, p t = true → t.kind = .punct) : Flow b false (tok (takeIf p wanted)) :=
  (flow_takeIf fun t h => by simp [hp t h]).tok

omit hg in
theorem flow_takeLiteral {wanted : Wanted} : Flow false true (tok (takeIf isLiteral wanted)) := by
  refine Flow.tok fun t a u h => ?_
  exact ⟨[a], (takeIf_passes h).1, ⟨fun _ => rfl, trivial⟩, fun _ => rfl⟩

omit hg in
theorem flow_binaryOperator : Flow b false binaryOperator := by
  refine Flow.cond peeks_sees (FlowAll.parts ?_) (flow_takePunct fun t h => ?_)
  · exact .cons (flow_take ">") (.cons (Flow.many peeks_test (flow_take ">"))
      (.cons (Flow.optional peeks_test (flow_take ">=") id) .nil))
  · simp only [isBinaryOperator, Bool.and_eq_true, beq_iff_eq] at h
    exact h.1

theorem flow_arguments : Flow b false (arguments g) :=
  flow_delimited hg.expression

theorem flow_parenthesized : Flow b false (parenthesized g) :=
  (FlowAll.cons (flow_take "(") (.cons hg.expression.one (.cons (flow_take ")") .nil))).build _

theorem flow_arrayInit : Flow b false (arrayInit g) :=
  flow_delimited (Flow.cond peeks_sees hg.arrayInit.open hg.expression)

theorem flow_dimension (sized : Bool) : Flow b false (dimension g sized) := by
  refine (FlowAll.cons (flow_take "[") (.cons (c := true) ?_ (.cons (flow_take "]") .nil))).build _
  exact Flow.ite (Flow.optional (peeks_not peeks_sees) hg.expression.one fun _ => rfl)
    (flow_pure []).open

theorem flow_classBody : Flow b false (classBody g) :=
  (FlowAll.cons (flow_take openBrace) (.cons (Flow.many (peeks_not peeks_sees) hg.member.one)
    (.cons (flow_take closeBrace) .nil))).build _

theorem flow_creation : Flow b false (creation g) := by
  refine (FlowAll.cons (flow_take "new") (.cons (flow_typeTree hg false).one .nil)).parts.bind
    fun start => Flow.cond peeks_sees (FlowAll.build ?_ _) (FlowAll.build ?_ _)
  · exact .cons (flow_pure start) (.cons (Flow.many peeks_sees (flow_dimension hg true).one)
      (.cons (Flow.optional peeks_sees (flow_arrayInit hg).one id) .nil))
  · exact .cons (flow_pure start) (.cons (flow_arguments hg).one
      (.cons (Flow.optional peeks_sees (flow_classBody hg).one id) .nil))

theorem flow_nameOrCall : Flow false false (nameOrCall g) := by
  have hname : Flow false false (tok (takeIf isName .expression)) := by
    refine Flow.tok (flow_takeWord fun t h => ?_)
    simp only [isName, isIdentifier, Bool.or_eq_true, Bool.and_eq_true, beq_iff_eq] at h
    rcases h with h | h <;> simp [h]
  exact Flow.cond peeks_sees ((FlowAll.cons hname (.cons (flow_arguments hg).one .nil)).build _)
    ((FlowAll.cons hname .nil).build _)

theorem flow_primary : Flow false true (primary g) :=
  Flow.cond peeks_test ((FlowAll.cons flow_takeLiteral .nil).build _) <|
  Flow.cond peeks_test (flow_nameOrCall hg).open <|
  Flow.cond peeks_sees (flow_creation hg).open <|
  Flow.cond peeks_test (flow_typeTree hg true).open <|
  Flow.cond peeks_sees (flow_parenthesized hg).open <|
  Flow.cond peeks_sees (flow_arrayInit hg).open flow_expected

theorem flow_member (operand : Node) : Flow b false (member g operand) := by
  have hname : Flow false false (tok (takeIf isMemberName .memberName)) := by
    refine Flow.tok (flow_takeWord fun t h => ?_)
    simp only [isMemberName, isIdentifier, Bool.or_eq_true, beq_iff_eq] at h
    rcases h with h | h
    · simp [h]
    · obtain ⟨text, _, h⟩ := List.any_eq_true.1 h
      simp only [isSign, Bool.and_eq_true, Bool.or_eq_true, beq_iff_eq] at h
      rcases h.1 with hkind | hkind <;> simp [hkind]
  exact flow_sign.bind fun dot => Flow.cond peeks_test flow_fail <|
    Flow.cond peeks_sees
      ((FlowAll.cons (flow_pure _) (.cons hname (.cons (flow_arguments hg).one .nil))).build _)
      ((FlowAll.cons (flow_pure _) (.cons hname .nil)).build _)

omit hg in
theorem flow_round {p : Parser Node} {more : Bool} (hp : Flow b c p) :
    Flow b c (do return (← p, more)) :=
  hp.bind fun _ => flow_pure _

theorem flow_postfixStep (operand : Node) : Flow true true (postfixStep g operand) :=
  Flow.cond peeks_sees flow_fail <|
  Flow.cond peeks_sees flow_fail <|
  Flow.cond peeks_sees (flow_round (flow_member hg operand).open) <|
  Flow.cond peeks_sees (flow_round (Flow.open ((FlowAll.cons (flow_pure _) (.cons (flow_take "[")
    (.cons hg.expression.one (.cons (flow_take "]") .nil)))).build _))) <|
  Flow.cond peeks_test
    (flow_round (Flow.open ((FlowAll.cons (flow_pure _) (.cons flow_oneOf.tok .nil)).build _)))
    (flow_pure _)

theorem flow_unary : Flow false true (unary g) := by
  refine Flow.cond peeks_test ((FlowAll.cons (flow_takePunct fun t h => ?_)
    (.cons hg.unary.one .nil)).build _) (Flow.cond (peeks_castAhead g) (FlowAll.build ?_ _) ?_)
  · simp only [isPrefixOperator, Bool.and_eq_true, beq_iff_eq] at h
    exact h.1
  · exact .cons (flow_take "(") (.cons hg.type.one (.cons (flow_take ")") (.cons hg.unary.one .nil)))
  · exact (flow_primary hg).bind (flow_iterate (flow_postfixStep hg))

theorem flow_operatorStep (left : Node) : Flow true true (operatorStep g left) := by
  refine Flow.cond peeks_sees (flow_round (FlowAll.build ?_ _)) <|
    Flow.cond peeks_sees (flow_round (Flow.open (FlowAll.build ?_ _))) <|
    Flow.cond peeks_test (flow_round (FlowAll.build ?_ _)) (flow_pure _)
  · exact .cons (flow_pure _) (.cons (flow_take "?") (.cons hg.expression.one
      (.cons (flow_take ":") (.cons hg.expression.one .nil))))
  · exact .cons (flow_pure _) (.cons (flow_take "instanceof") (.cons hg.type.one .nil))
  · exact .cons (flow_pure _) (.cons flow_binaryOperator (.cons (flow_unary hg).one .nil))

theorem flow_expression : Flow false true (expression g) :=
  (flow_unary hg).bind (flow_iterate (flow_operatorStep hg))

/-! ### Statements -/

omit hg in
theorem flow_empty : Flow b false empty :=
  (FlowAll.cons (flow_take ";") .nil).build _

theorem flow_modifiers : Flow false false (modifiers g) := by
  have huse : Flow false false (annotationUse g) :=
    (FlowAll.cons (flow_take "@") (.cons (flow_qualifiedName false).one
      (.cons (Flow.optional peeks_sees (flow_arguments hg).one id) .nil))).build _
  have hword : Flow false false (tok (takeIf isModifier .identifier)) := by
    refine Flow.tok (flow_takeWord fun t h => ?_)
    simp only [isModifier, Bool.and_eq_true, beq_iff_eq] at h
    simp [h.1]
  exact (Flow.many peeks_modifierAhead (Flow.cond peeks_sees huse.one hword)).bind fun _ =>
    Flow.ite (flow_pure _) (flow_pure _)

theorem flow_namedVariable : Flow false true (namedVariable g) := by
  refine (FlowAll.cons flow_takeIdentifier (.cons (Flow.many peeks_sees (flow_dimension hg false).one)
    (.cons (Flow.optional peeks_sees (FlowAll.parts ?_) fun _ => rfl) .nil))).build _
  exact .cons (flow_take "=") (.cons
    (Flow.cond peeks_sees (flow_arrayInit hg).open.one hg.expression.one) .nil)

theorem flow_declarators : Flow false true (declarators g) :=
  (FlowAll.cons (flow_commaList (flow_namedVariable hg)) .nil).build _

theorem flow_localVariable : Flow false false (localVariable g) :=
  (FlowAll.cons (flow_modifiers hg) (.cons (flow_typeTree hg true).one
    (.cons (flow_declarators hg).one (.cons (flow_take ";") .nil)))).build _

theorem flow_block : Flow b false (block g) :=
  (FlowAll.cons (flow_take openBrace) (.cons (Flow.many (peeks_not peeks_sees) hg.statement.one)
    (.cons (flow_take closeBrace) .nil))).build _

theorem flow_resource : Flow false true (resource g) :=
  Flow.cond (peeks_variableAhead g)
    ((FlowAll.cons (flow_modifiers hg) (.cons (flow_typeTree hg true).one (.cons flow_takeIdentifier
      (.cons (flow_take "=") (.cons hg.expression.one .nil))))).build _)
    ((FlowAll.cons (flow_expression hg).one .nil).build _)

theorem flow_catchClause : Flow b false (catchClause g) :=
  (FlowAll.cons (flow_take "catch") (.cons (flow_take "(") (.cons (flow_modifiers hg)
    (.cons (flow_typeTree hg true).one (.cons (Flow.many peeks_sees
      (FlowAll.cons (flow_take "|") (.cons hg.type.one .nil)).parts) (.cons flow_takeIdentifier
        (.cons (flow_take ")") (.cons (flow_block hg).one .nil)))))))).build _

theorem flow_tryStatement : Flow b false (tryStatement g) := by
  refine (flow_take "try").bind fun keyword => ?_
  refine (Flow.optional peeks_sees (flow_delimited (flow_resource hg)).one id).bind fun resources => ?_
  refine (flow_block hg).one.bind fun body => ?_
  refine (FlowAll.cons (Flow.many peeks_sees (flow_catchClause hg).one) (.cons (Flow.optional peeks_sees
    (Flow.one ((FlowAll.cons (flow_take "finally") (.cons (flow_block hg).one .nil)).build _)) id)
      .nil)).parts.bind fun handlers => ?_
  exact Flow.ite flow_expected (flow_pure _)

theorem flow_valueStatement (k : Kind) (keyword : String) :
    Flow b false (valueStatement g k keyword) :=
  (FlowAll.cons (flow_take keyword) (.cons (Flow.optional (peeks_not peeks_sees) hg.expression.one
    fun _ => rfl) (.cons (flow_take ";") .nil))).build k

omit hg in
theorem flow_jumpStatement : Flow b false jumpStatement :=
  (FlowAll.cons flow_oneOf.tok (.cons (Flow.optional peeks_test flow_takeIdentifier id)
    (.cons (flow_take ";") .nil))).build _

theorem flow_ifStatement : Flow b false (ifStatement g) :=
  (FlowAll.cons (flow_take "if") (.cons (flow_parenthesized hg).one (.cons hg.statement.one
    (.cons (Flow.optional peeks_sees
      (FlowAll.cons (flow_take "else") (.cons hg.statement.one .nil)).parts id) .nil)))).build _

theorem flow_whileStatement : Flow b false (whileStatement g) :=
  (FlowAll.cons (flow_take "while") (.cons (flow_parenthesized hg).one
    (.cons hg.statement.one .nil))).build _

theorem flow_statement : Flow false false (statement g) :=
  Flow.cond peeks_sees (flow_block hg) <|
  Flow.cond peeks_sees flow_empty <|
  Flow.cond peeks_sees (flow_valueStatement hg _ _) <|
  Flow.cond peeks_sees (flow_valueStatement hg _ _) <|
  Flow.cond peeks_test flow_jumpStatement <|
  Flow.cond peeks_sees (flow_ifStatement hg) <|
  Flow.cond peeks_sees (flow_whileStatement hg) <|
  Flow.cond peeks_sees (flow_tryStatement hg) <|
  Flow.cond peeks_test (fun _ _ _ h => absurd h fail_run) <|
  Flow.cond peeks_labelAhead flow_fail <|
  Flow.cond (peeks_variableAhead g) (flow_localVariable hg)
    ((FlowAll.cons (flow_expression hg).one (.cons (flow_take ";") .nil)).build _)

/-! ### Declarations -/

theorem flow_enumConstants : Flow false false (enumConstants g) := by
  have hconstant : Flow false false (enumConstant g) :=
    (FlowAll.cons (flow_modifiers hg) (.cons flow_takeIdentifier
      (.cons (Flow.optional peeks_sees (flow_arguments hg).one id)
        (.cons (Flow.optional peeks_sees (flow_classBody hg).one id) .nil)))).build _
  exact (flow_separated peeks_test hconstant).bind fun _ =>
    Flow.cond peeks_sees (flow_sign.bind fun _ => flow_pure _) (flow_pure _)

theorem flow_enumBody : Flow b false (enumBody g) :=
  (FlowAll.cons (flow_take openBrace) (.cons (flow_enumConstants hg).one
    (.cons (Flow.many (peeks_not peeks_sees) hg.member.one)
      (.cons (flow_take closeBrace) .nil)))).build _

theorem flow_classDeclaration (mods : List Element) :
    Flow false false (classDeclaration g mods) := by
  refine Flow.cond peeks_sees flow_fail <| Flow.cond peeks_test flow_fail <|
    (flow_peeks peeks_sees).bind fun isEnum => FlowAll.build ?_ _
  exact .cons (flow_pure mods) (.cons flow_oneOf.tok (.cons flow_takeIdentifier
    (.cons (Flow.optional peeks_sees (flow_typeParameters hg).one id)
      (.cons (Flow.optional peeks_sees (flow_typeList hg _ _).one id)
        (.cons (Flow.optional peeks_sees (flow_typeList hg _ _).one id)
          (.cons (Flow.ite (flow_enumBody hg).one (flow_classBody hg).one) .nil))))))

theorem flow_parameter : Flow false false (parameter g) :=
  (FlowAll.cons (flow_modifiers hg) (.cons (flow_typeTree hg true).one
    (.cons (Flow.optional peeks_sees (flow_take "...") id) (.cons flow_takeIdentifier
      (.cons (Flow.many peeks_sees (flow_dimension hg false).one) .nil))))).build _

theorem flow_methodFrom (start : List Element) : Flow false false (methodFrom g start) :=
  (FlowAll.cons (flow_pure start) (.cons (flow_delimited (flow_parameter hg)).one
    (.cons (Flow.optional peeks_sees (flow_typeList hg _ _).one id)
      (.cons (Flow.optional peeks_sees flow_fail id)
        (.cons (Flow.cond peeks_sees (flow_block hg).one (flow_take ";")) .nil))))).build _

theorem flow_memberFrom (mods : List Element) : Flow false false (memberFrom g mods) := by
  refine (FlowAll.cons (flow_pure mods)
    (.cons (Flow.optional peeks_sees (flow_typeParameters hg).one id) .nil)).parts.bind fun start => ?_
  refine Flow.cond peeks_callAhead (flow_takeIdentifier.bind fun _ => flow_methodFrom hg _) ?_
  refine (flow_typeTree hg true).one.bind fun type => ?_
  refine Flow.cond peeks_callAhead (flow_takeIdentifier.bind fun _ => flow_methodFrom hg _) ?_
  exact (FlowAll.cons (flow_pure _) (.cons (flow_declarators hg).one
    (.cons (flow_take ";") .nil))).build _

theorem flow_typeMember : Flow false false (typeMember g) :=
  Flow.cond peeks_sees flow_empty <|
  Flow.cond peeks_initializerAhead
    ((FlowAll.cons (Flow.optional peeks_sees (flow_take "static") id)
      (.cons (flow_block hg).one .nil)).build _) <|
  (flow_modifiers hg).bind fun mods =>
    Flow.cond peeks_test (flow_classDeclaration hg mods) (flow_memberFrom hg mods)

theorem flow_topLevel : Flow false false (topLevel g) :=
  Flow.cond peeks_sees flow_empty ((flow_modifiers hg).bind (flow_classDeclaration hg))

theorem flows_production : Flows (production g) where
  type := flow_typeTree hg true
  expression := flow_expression hg
  unary := flow_unary hg
  arrayInit := flow_arrayInit hg
  statement := flow_statement hg
  member := flow_typeMember hg

end

theorem flows_nested (depth : Nat) : Flows (nested depth) := by
  induction depth with
  | zero => exact ⟨flow_fail, flow_fail, flow_fail, flow_fail, flow_fail, flow_fail⟩
  | succ depth ih => exact flows_production ih

/-! ### Whole units -/

theorem flow_packageClause : Flow false false packageClause :=
  (FlowAll.cons (flow_take "package") (.cons (flow_qualifiedName false).one
    (.cons (flow_take ";") .nil))).build _

theorem flow_importClause : Flow false false importClause :=
  (FlowAll.cons (flow_take "import") (.cons (Flow.optional peeks_sees (flow_take "static") id)
    (.cons (flow_qualifiedName true).one (.cons (flow_take ";") .nil)))).build _

end Grammar

theorem apart_of_parseTokens {tokens : Tokens} {root : Node} (htokens : tokens.Genuine)
    (h : parseTokens tokens = .ok root) : Apart false (tokens.ahead.map Lexed.token) := by
  obtain ⟨⟨unit, u⟩, hunit, h⟩ := bind_eq_ok.1 h
  cases h
  obtain ⟨es, hes, rfl⟩ := build_run.1 hunit
  obtain ⟨declarations, v, _, hdeclarations, _, rfl⟩ :=
    (parts_append_run [_, _, _] [_]).1 hes
  obtain ⟨_, hahead, _⟩ := declarations_run (Grammar.growsAll_nested _) htokens hdeclarations
  have hflow : Flow false false (parts
      [optional (sees "package") (one Grammar.packageClause),
        manyWhile (sees "import") (one Grammar.importClause),
        manyWhile Grammar.more
          (one (Grammar.topLevel (Grammar.nested (tokens.ahead.length + 1))))]) :=
    (FlowAll.cons (Flow.optional peeks_sees Grammar.flow_packageClause.one id)
      (.cons (Flow.many peeks_sees Grammar.flow_importClause.one)
        (.cons (Flow.many Grammar.peeks_more
          (Grammar.flow_topLevel (Grammar.flows_nested _)).one) .nil))).parts
  obtain ⟨taken, ⟨_, front, hfront, rfl⟩, hapart, _⟩ := hflow _ _ _ hdeclarations
  rw [hfront, hahead, List.append_nil]
  exact hapart

end Codemod.Java
