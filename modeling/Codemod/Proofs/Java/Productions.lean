import Codemod.Java.Unit
import Codemod.Proofs.Java.Endings

/-!
The productions of the grammar grow nodes if the constructs inside them do.
-/

namespace Codemod.Java

open Codemod.Tree Codemod.Java.Parser

/-! ### Probes -/

theorem peeks_not {p : Parser Bool} (hp : Peeks p) : Peeks (do return !(← p)) :=
  hp.bind fun _ => peeks_pure

namespace Grammar

theorem peeks_dotThen {p : Token → Bool} : Peeks (dotThen p) :=
  peeks_sees.cond peeks_test peeks_pure

theorem peeks_emptyBrackets : Peeks emptyBrackets :=
  peeks_sees.cond peeks_sees peeks_pure

theorem peeks_modifierAhead : Peeks modifierAhead :=
  peeks_sees.cond (peeks_not peeks_sees)
    (peeks_test.cond (peeks_sees.cond (peeks_not peeks_sees) peeks_pure) peeks_pure)

theorem peeks_labelAhead : Peeks labelAhead :=
  peeks_test.cond peeks_sees peeks_pure

theorem peeks_callAhead : Peeks callAhead :=
  peeks_test.cond peeks_sees peeks_pure

theorem peeks_initializerAhead : Peeks initializerAhead :=
  peeks_sees.cond peeks_pure (peeks_sees.cond peeks_sees peeks_pure)

variable (g : Grammar)

theorem peeks_declarationAhead : Peeks (declarationAhead g) := by
  refine peeks_test.bind fun primitive => peeks_sees.bind fun member => ?_
  split_ifs
  · exact peeks_pure
  · exact peeks_foresee

theorem peeks_variableAhead : Peeks (variableAhead g) :=
  peeks_test.cond peeks_pure (peeks_declarationAhead g)

theorem peeks_castAhead : Peeks (castAhead g) :=
  peeks_foresee

/-! ### Names and types -/

theorem yields_furtherNames : Yields furtherNames :=
  yields_manyWhile peeks_dotThen (yields_parts (.cons yields_tok (.cons yields_tok .nil)))

theorem furtherNames_dotted {t u : Tokens} {es : List Element} (ht : t.Genuine)
    (h : furtherNames t = .ok (es, u)) :
    ∃ ts : List Token, es = ts.map .token ∧ ∀ us, Dotted us → Dotted (us ++ ts) := by
  have hstart : t.Genuine ∧ ∃ ts : List Token, [] = ts.map Element.token ∧
      ∀ us, Dotted us → Dotted (us ++ ts) :=
    ⟨ht, [], rfl, fun us hus => (List.append_nil us).symm ▸ hus⟩
  refine iterate_induct
    (P := fun done v => v.Genuine ∧
      ∃ ts : List Token, done = ts.map .token ∧ ∀ us, Dotted us → Dotted (us ++ ts))
    (Q := fun done _ =>
      ∃ ts : List Token, done = ts.map .token ∧ ∀ us, Dotted us → Dotted (us ++ ts))
    ?_ ?_ hstart h
  · rintro _ v done w ⟨hv, ts, rfl, hts⟩ hstep
    obtain ⟨_, ⟨_, next, hnext, rfl⟩ | ⟨⟨⟩, _⟩⟩ := (manyStep_run peeks_dotThen).1 hstep
    obtain ⟨dot, x, _, hdot, hrest, rfl⟩ := parts_tok_run.1 hnext
    obtain ⟨name, y, _, hname, hend, rfl⟩ := parts_tok_run.1 hrest
    obtain ⟨rfl, rfl⟩ := parts_nil_run.1 hend
    obtain ⟨hdotPasses, hdotSign⟩ := takeIf_passes hdot
    obtain ⟨hnamePasses, hidentifier⟩ := takeIf_passes hname
    have hx := hdotPasses.genuine hv
    have hkind : name.kind = .identifier := by simpa [isIdentifier] using hidentifier
    have hpart : IsPart name :=
      ⟨hkind, (hnamePasses.mem_genuine hx (by simp)).noDot hkind⟩
    refine ⟨hnamePasses.genuine hx, ts ++ [dot, name], by simp, fun us hus => ?_⟩
    rw [← List.append_assoc]
    exact .snoc (hts us hus) (text_of_isSign hdotSign) hpart
  · rintro _ v done w ⟨_, hts⟩ hstep
    obtain ⟨_, ⟨⟨⟩, _⟩ | ⟨_, rfl, rfl⟩⟩ := (manyStep_run peeks_dotThen).1 hstep
    exact hts

theorem grows_qualifiedName (allowStar : Bool) : Grows (qualifiedName allowStar) := by
  intro t n u ht h
  obtain ⟨es, hes, rfl⟩ := build_run.1 h
  have hstar : Yields (if allowStar then
      optional (dotThen (isSign · "*")) (parts [tok (take "."), tok (take "*")])
      else return []) :=
    Ensures.ite (yields_optional peeks_dotThen
      (yields_parts (.cons yields_tok (.cons yields_tok .nil)))) yields_nil
  have hgrown := yields_parts
    (.cons yields_tok (.cons yields_furtherNames (.cons hstar .nil))) ht hes
  refine hgrown.hoisted_of_shape rfl (by decide) ?_ trivial
  obtain ⟨first, v, _, hfirst, hrest, rfl⟩ := parts_tok_run.1 hes
  obtain ⟨_, w, _, hfurther, hrest', rfl⟩ := parts_cons_run.1 hrest
  obtain ⟨last, x, _, hlast, hend, rfl⟩ := parts_cons_run.1 hrest'
  obtain ⟨rfl, rfl⟩ := parts_nil_run.1 hend
  obtain ⟨hpasses, hidentifier⟩ := takeIf_passes hfirst
  have hkind : first.kind = .identifier := by simpa [isIdentifier] using hidentifier
  have hgenuine : Genuine first := hpasses.mem_genuine ht (by simp)
  have hpart : IsPart { first with lead := "" } := ⟨hkind, hgenuine.noDot hkind⟩
  obtain ⟨ts, rfl, hts⟩ := furtherNames_dotted (hpasses.genuine ht) hfurther
  have hname := hts _ (.part hpart)
  refine ⟨_, hname, ?_⟩
  cases allowStar with
  | false =>
      cases hlast
      exact .inl (by simp [Node.hoisted, Element.withLead])
  | true =>
      obtain ⟨present, y, hpresent, hlast⟩ := bind_run.1 hlast
      cases peeks_dotThen hpresent
      cases present with
      | false =>
          cases hlast
          exact .inl (by simp [Node.hoisted, Element.withLead])
      | true =>
          obtain ⟨dot, y, _, hdot, hstar, rfl⟩ := parts_tok_run.1 hlast
          obtain ⟨star, z, _, hstar, hend, rfl⟩ := parts_tok_run.1 hstar
          obtain ⟨rfl, rfl⟩ := parts_nil_run.1 hend
          refine .inr ⟨dot, star, text_of_isSign (takeIf_passes hdot).2,
            text_of_isSign (takeIf_passes hstar).2, ?_⟩
          simp [Node.hoisted, Element.withLead]

/-- The test that the last token of a construct passes. -/
def lastOf : Symbol → Token → Bool
  | .statement | .member => endsClause
  | _ => isNoSlash

/-- All constructs grow nodes, types are of one kind, and no member stands for the constants of an
enumeration. -/
structure GrowsAll (g : Grammar) : Prop where
  grows : ∀ symbol, Grows (g symbol)
  type : ∀ {t u : Tokens} {n : Node}, g .type t = .ok (n, u) → n.kind = .java .typeTree
  member : ∀ {t u : Tokens} {n : Node}, g .member t = .ok (n, u) → n.kind ≠ .java .enumConstants
  /-- A semicolon is a member only where one is ahead. -/
  stray : ∀ {t u : Tokens} {n : Node}, g .member t = .ok (n, u) → n.kind = .java .empty →
    isSign (t.nth 0) ";" = true
  ends : ∀ symbol, Ends (lastOf symbol) (g symbol)

theorem mem_of_enclosed {opening closing : String} {children inner : List Element} {c : Node}
    (h : Enclosed opening closing children inner) (hc : Element.node c ∈ children) :
    .node c ∈ inner := by
  obtain ⟨lead, rfl⟩ := h
  simpa using hc

section
variable {g : Grammar} (hg : GrowsAll g)
include hg

theorem endsWith_construct (symbol : Symbol) :
    Ensures (fun t n u => Grown t n u ∧ EndsWith (lastOf symbol) n) (g symbol) :=
  fun ht hn => ⟨hg.grows symbol ht hn,
    endsWith_of_grown (hg.grows symbol ht hn) (hg.ends symbol _ _ _ ht hn)⟩

theorem grows_wildcard : Grows (wildcard g) :=
  grows_build (.cons yields_tok (.cons (yields_optional peeks_test
    (yields_parts (.cons yields_tok (.cons (yields_one (hg.grows .type)) .nil)))) .nil)) rfl rfl

theorem grows_typeArguments : Grows (typeArguments g) :=
  grows_delimited_plain (hg.grows .type) rfl rfl rfl rfl

theorem yields_elementType : Yields (elementType g) :=
  Ensures.cond peeks_test yields_tok
    (yields_parts (.cons yields_tok (.cons yields_furtherNames (.cons
      (yields_optional peeks_sees (yields_one (grows_typeArguments hg))) .nil))))

theorem grows_typeTree (dimensions : Bool) : Grows (typeTree g dimensions) :=
  Ensures.cond peeks_sees (grows_wildcard hg)
    (grows_build (.cons (yields_elementType hg) (.cons
      (Ensures.ite (yields_manyWhile peeks_emptyBrackets
        (yields_parts (.cons yields_tok (.cons yields_tok .nil)))) yields_nil) .nil)) rfl rfl)

omit hg in
theorem typeTree_kind {dimensions : Bool} {t u : Tokens} {n : Node}
    (h : typeTree g dimensions t = .ok (n, u)) : n.kind = .java .typeTree := by
  obtain ⟨_, h | h⟩ := cond_run h
  · exact build_kind h
  · exact build_kind h

theorem grows_typeList {k : Kind} (keyword : String)
    (hk : k = .extendsClause ∨ k = .implementsClause ∨ k = .throwsClause) :
    Grows (typeList g k keyword) := by
  refine grows_keywordList (.of_kind fun kind => kind = .java .typeTree)
    (Ensures.and (hg.grows .type) fun _ h => hg.type h) ?_ ?_ ?_
  · intro first items hitems
    rcases hk with rfl | rfl | rfl <;> exact ⟨⟨first, items, hitems, rfl⟩, trivial⟩
  · rcases hk with rfl | rfl | rfl <;> decide
  · rcases hk with rfl | rfl | rfl <;> rfl

theorem grows_typeParameter : Grows (typeParameter g) :=
  grows_build (.cons yields_tok (.cons (yields_optional peeks_sees (yields_parts
    (.cons yields_tok (.cons (yields_one (hg.grows .type)) (.cons (yields_manyWhile peeks_sees
      (yields_parts (.cons yields_tok (.cons (yields_one (hg.grows .type)) .nil)))) .nil))))) .nil))
    rfl rfl

theorem grows_typeParameters : Grows (typeParameters g) :=
  grows_delimited_plain (grows_typeParameter hg) rfl rfl rfl rfl

/-! ### Expressions -/

omit hg in
theorem yields_binaryOperator : Yields binaryOperator :=
  Ensures.cond peeks_sees
    (yields_parts (.cons yields_tok (.cons (yields_manyWhile peeks_test yields_tok)
      (.cons (yields_optional peeks_test yields_tok) .nil)))) yields_tok

theorem grows_arguments : Grows (arguments g) := by
  refine grows_delimited (.of_kind fun _ => True)
    (fun ht hn => ⟨hg.grows .expression ht hn, trivial⟩) ?_ rfl (by decide) rfl rfl
  intro children items _ hchildren
  exact ⟨⟨items, hchildren⟩, trivial⟩

theorem grows_parenthesized : Grows (parenthesized g) :=
  grows_build (.cons yields_tok (.cons (yields_one (hg.grows .expression)) (.cons yields_tok .nil)))
    rfl rfl

theorem grows_arrayInit : Grows (arrayInit g) :=
  grows_delimited_plain (Ensures.cond peeks_sees (hg.grows .arrayInit) (hg.grows .expression))
    rfl rfl rfl rfl

theorem grows_dimension (sized : Bool) : Grows (dimension g sized) :=
  grows_build (.cons yields_tok (.cons (Ensures.ite
    (yields_optional (peeks_not peeks_sees) (yields_one (hg.grows .expression))) yields_nil)
    (.cons yields_tok .nil))) rfl rfl

theorem grows_classBody : Grows (classBody g) := by
  refine grows_enclosed [manyWhile (do return !(← sees closeBrace)) (one (g .member))]
    (.cons (yields_manyWhile (peeks_not peeks_sees) (yields_one (hg.grows .member))) .nil) ?_
    rfl (by decide) rfl rfl
  intro t u members ht h children hchildren
  obtain ⟨_, v, _, hmembers, hend, rfl⟩ := parts_cons_run.1 h
  obtain ⟨rfl, rfl⟩ := parts_nil_run.1 hend
  have hends := manyWhile_all (peeks_not peeks_sees) (endsWith_construct hg .member) ht hmembers
  obtain ⟨items, rfl, _⟩ := manyWhile_items (peeks_not peeks_sees) hmembers
  rw [List.append_nil] at hchildren
  exact ⟨⟨items, hchildren⟩, fun c hc => hends c (mem_of_enclosed hchildren hc)⟩

theorem grows_creation : Grows (creation g) :=
  Extends.grows (Extends.bind
    (yields_parts (.cons yields_tok (.cons (yields_one (grows_typeTree hg false)) .nil)))
    fun _ => Extends.cond peeks_sees
      (extends_build (.cons (yields_manyWhile peeks_sees (yields_one (grows_dimension hg true)))
        (.cons (yields_optional peeks_sees (yields_one (grows_arrayInit hg))) .nil)) rfl rfl)
      (extends_build (.cons (yields_one (grows_arguments hg))
        (.cons (yields_optional peeks_sees (yields_one (grows_classBody hg))) .nil)) rfl rfl))

theorem grows_nameOrCall : Grows (nameOrCall g) :=
  Ensures.cond peeks_sees
    (grows_build (.cons yields_tok (.cons (yields_one (grows_arguments hg)) .nil)) rfl rfl)
    (grows_build (.cons yields_tok .nil) rfl rfl)

theorem grows_primary : Grows (primary g) :=
  Ensures.cond peeks_test (grows_build (.cons yields_tok .nil) rfl rfl)
    (Ensures.cond peeks_test (grows_nameOrCall hg)
      (Ensures.cond peeks_sees (grows_creation hg)
        (Ensures.cond peeks_test (grows_typeTree hg true)
          (Ensures.cond peeks_sees (grows_parenthesized hg)
            (Ensures.cond peeks_sees (grows_arrayInit hg) Ensures.expected)))))

theorem extends_member (operand : Node) : Extends [.node operand] (member g operand) :=
  Extends.bind_take fun _ => Extends.cond peeks_test Extends.fail
    (Extends.cond peeks_sees
      (extends_build (.cons yields_tok (.cons (yields_one (grows_arguments hg)) .nil)) rfl rfl)
      (extends_build (.cons yields_tok .nil) rfl rfl))

theorem advances_postfixStep (operand : Node) : Advances operand (postfixStep g operand) :=
  Advances.cond peeks_sees Advances.fail
    (Advances.cond peeks_sees Advances.fail
      (Advances.cond peeks_sees (Advances.of_extends (extends_member hg operand))
        (Advances.cond peeks_sees
          (Advances.of_extends (extends_build
            (.cons yields_tok (.cons (yields_one (hg.grows .expression)) (.cons yields_tok .nil)))
            rfl rfl))
          (Advances.cond peeks_test
            (Advances.of_extends (extends_build (.cons yields_tok .nil) rfl rfl)) Advances.stop))))

theorem grows_unary : Grows (unary g) :=
  Ensures.cond peeks_test
    (grows_build (.cons yields_tok (.cons (yields_one (hg.grows .unary)) .nil)) rfl rfl)
    (Ensures.cond (peeks_castAhead g)
      (grows_build (.cons yields_tok (.cons (yields_one (hg.grows .type)) (.cons yields_tok
        (.cons (yields_one (hg.grows .unary)) .nil)))) rfl rfl)
      (grows_iterate (grows_primary hg) (advances_postfixStep hg)))

theorem advances_operatorStep (left : Node) : Advances left (operatorStep g left) :=
  Advances.cond peeks_sees
    (Advances.of_extends (extends_build (.cons yields_tok (.cons (yields_one (hg.grows .expression))
      (.cons yields_tok (.cons (yields_one (hg.grows .expression)) .nil)))) rfl rfl))
    (Advances.cond peeks_sees
      (Advances.of_extends
        (extends_build (.cons yields_tok (.cons (yields_one (hg.grows .type)) .nil)) rfl rfl))
      (Advances.cond peeks_test
        (Advances.of_extends
          (extends_build (.cons yields_binaryOperator (.cons (yields_one (grows_unary hg)) .nil))
            rfl rfl))
        Advances.stop))

theorem grows_expression : Grows (expression g) :=
  grows_iterate (grows_unary hg) (advances_operatorStep hg)

/-! ### Last tokens of expressions -/

omit hg in
theorem noSlash_word {q : Token → Bool} {wanted : Wanted}
    (h : ∀ t, q t = true → t.kind ≠ .punct) : Ends isNoSlash (tok (takeIf q wanted)) :=
  ends_tok fun t ht => by simp [isNoSlash, h t ht]

omit hg in
theorem noSlash_of_isOneOf {texts : List String} (h : "/" ∉ texts) {t : Token}
    (ht : isOneOf texts t = true) : isNoSlash t = true := by
  obtain ⟨text, hmem, hsign⟩ := List.any_eq_true.1 ht
  have hne : t.text ≠ "/" := fun htext => h (htext ▸ text_of_isSign hsign ▸ hmem)
  simp [isNoSlash, hne]

omit hg in
theorem noSlash_identifier : Ends isNoSlash (tok takeIdentifier) :=
  noSlash_word fun t ht => by
    have hkind : t.kind = .identifier := by simpa [isIdentifier] using ht
    simp [hkind]

omit hg in
theorem mayEnd_furtherNames : MayEnd isNoSlash furtherNames :=
  mayEnd_manyWhile peeks_dotThen (ends_behind moves_tok (ends_last noSlash_identifier))

theorem ends_wildcard : Ends isNoSlash (wildcard g) :=
  ends_build (ends_cons (noSlash_take (by decide)) (mayEnd_last (mayEnd_optional peeks_test
    (ends_behind moves_tok (ends_last (ends_one (hg.ends .type)))))))

theorem ends_typeArguments : Ends isNoSlash (typeArguments g) :=
  ends_delimited (hg.grows .type) (noSlash_take (by decide))

theorem ends_elementType : Ends isNoSlash (elementType g) := by
  refine Spans.cond peeks_test (noSlash_word fun t ht => ?_) ?_
  · have hkind : t.kind = .keyword := by
      simp only [isPrimitive, Bool.and_eq_true, beq_iff_eq] at ht
      exact ht.1
    simp [hkind]
  · exact ends_cons noSlash_identifier (mayEnd_cons mayEnd_furtherNames
      (mayEnd_last (mayEnd_optional peeks_sees (ends_one (ends_typeArguments hg)))))

theorem ends_typeTree (dimensions : Bool) : Ends isNoSlash (typeTree g dimensions) := by
  refine Spans.cond peeks_sees (ends_wildcard hg)
    (ends_build (ends_cons (ends_elementType hg) (mayEnd_last (Spans.ite ?_ mayEnd_pure))))
  exact mayEnd_manyWhile peeks_emptyBrackets
    (ends_behind moves_tok (ends_last (noSlash_take (by decide))))

theorem ends_arguments : Ends isNoSlash (arguments g) :=
  ends_delimited (hg.grows .expression) (noSlash_take (by decide))

theorem ends_parenthesized : Ends isNoSlash (parenthesized g) :=
  ends_build (ends_behind moves_tok (ends_behind (moves_of_grows (hg.grows .expression))
    (ends_last (noSlash_take (by decide)))))

theorem ends_arrayInit : Ends isNoSlash (arrayInit g) :=
  ends_delimited (Ensures.cond peeks_sees (hg.grows .arrayInit) (hg.grows .expression))
    (noSlash_take (by decide))

theorem ends_dimension : Ends isNoSlash (dimension g true) :=
  ends_build (ends_behind moves_tok (ends_behind
    (moves_of_yields (yields_optional (peeks_not peeks_sees) (yields_one (hg.grows .expression))))
    (ends_last (noSlash_take (by decide)))))

theorem ends_classBody : Ends endsClause (classBody g) :=
  ends_build (ends_behind moves_tok (ends_behind
    (moves_of_yields (yields_manyWhile (peeks_not peeks_sees) (yields_one (hg.grows .member))))
    (ends_last (clause_take (.inr rfl)))))

theorem noSlash_classBody : Ends isNoSlash (classBody g) :=
  (ends_classBody hg).mono isNoSlash_of_endsClause

theorem ends_creation : Ends isNoSlash (creation g) := by
  have hstart : Ends isNoSlash (parts [tok (take "new"), one (typeTree g false)]) :=
    ends_behind moves_tok (ends_last (ends_one (ends_typeTree hg false)))
  refine Ends.bind hstart fun start => Spans.cond peeks_sees ?_ ?_
  · refine MayEnd.bind ?_ fun _ => mayEnd_pure
    exact mayEnd_cons mayEnd_pure (mayEnd_cons
      (mayEnd_manyWhile peeks_sees (ends_one (ends_dimension hg)))
      (mayEnd_last (mayEnd_optional peeks_sees (ends_one (ends_arrayInit hg)))))
  · refine Ends.may (ends_build (ends_behind moves_pure ?_))
    exact ends_cons (ends_one (ends_arguments hg))
      (mayEnd_last (mayEnd_optional peeks_sees (ends_one (noSlash_classBody hg))))

theorem ends_nameOrCall : Ends isNoSlash (nameOrCall g) := by
  refine Spans.cond peeks_sees ?_ (ends_build (ends_last (noSlash_word fun t ht => ?_)))
  · exact ends_build (ends_behind moves_tok (ends_last (ends_one (ends_arguments hg))))
  · have hkind : t.kind = .identifier ∨ t.kind = .keyword := by
      simp only [isName, isIdentifier, Bool.or_eq_true, Bool.and_eq_true, beq_iff_eq] at ht
      exact ht.imp_right And.left
    rcases hkind with hkind | hkind <;> simp [hkind]

theorem ends_primary : Ends isNoSlash (primary g) := by
  refine Spans.cond peeks_test (ends_build (ends_last (noSlash_word fun t ht => ?_)))
    (Spans.cond peeks_test (ends_nameOrCall hg) (Spans.cond peeks_sees (ends_creation hg)
      (Spans.cond peeks_test (ends_typeTree hg true)
        (Spans.cond peeks_sees (ends_parenthesized hg)
          (Spans.cond peeks_sees (ends_arrayInit hg) ?_)))))
  · have hkind : t.kind = .literal := by simpa [isLiteral] using ht
    simp [hkind]
  · exact Spans.expected

omit hg in
theorem noSlash_memberName : Ends isNoSlash (tok (takeIf isMemberName .memberName)) := by
  refine ends_tok fun t ht => ?_
  simp only [isMemberName, isIdentifier, Bool.or_eq_true, beq_iff_eq] at ht
  rcases ht with hkind | hword
  · simp [isNoSlash, hkind]
  · exact noSlash_of_isOneOf (by decide) hword

theorem ends_member (operand : Node) : Ends isNoSlash (member g operand) := by
  refine Moves.bind moves_takeIf fun dot => Spans.cond peeks_test Spans.fail ?_
  refine Spans.cond peeks_sees (ends_build (ends_behind moves_pure ?_))
    (ends_build (ends_behind moves_pure (ends_last noSlash_memberName)))
  exact ends_behind moves_tok (ends_last (ends_one (ends_arguments hg)))

theorem mayEnd_postfixStep (operand : Node) : MayEnd isNoSlash (postfixStep g operand) := by
  refine Spans.cond peeks_sees Spans.fail ?_
  refine Spans.cond peeks_sees Spans.fail ?_
  refine Spans.cond peeks_sees (Ends.may (Ends.returns (ends_member hg operand))) ?_
  refine Spans.cond peeks_sees ?_ (Spans.cond peeks_test ?_ mayEnd_pure)
  · refine Ends.may (Ends.returns (ends_build ?_))
    exact ends_behind moves_pure (ends_behind moves_tok
      (ends_behind (moves_of_grows (hg.grows .expression)) (ends_last (noSlash_take (by decide)))))
  · refine Ends.may (Ends.returns (ends_build ?_))
    exact ends_behind moves_pure
      (ends_last (ends_tok fun t ht => noSlash_of_isOneOf (by decide) ht))

theorem ends_unary : Ends isNoSlash (unary g) := by
  refine Spans.cond peeks_test ?_ (Spans.cond (peeks_castAhead g) ?_
    (ends_iterate (ends_primary hg) (mayEnd_postfixStep hg)))
  · exact ends_build (ends_behind moves_tok (ends_last (ends_one (hg.ends .unary))))
  · exact ends_build (ends_behind moves_tok (ends_behind (moves_of_grows (hg.grows .type))
      (ends_behind moves_tok (ends_last (ends_one (hg.ends .unary))))))

theorem mayEnd_operatorStep (left : Node) : MayEnd isNoSlash (operatorStep g left) := by
  refine Spans.cond peeks_sees ?_ (Spans.cond peeks_sees ?_
    (Spans.cond peeks_test ?_ mayEnd_pure))
  · refine Ends.may (Ends.returns (ends_build ?_))
    exact ends_behind moves_pure (ends_behind moves_tok
      (ends_behind (moves_of_grows (hg.grows .expression)) (ends_behind moves_tok
        (ends_last (ends_one (hg.ends .expression))))))
  · refine Ends.may (Ends.returns (ends_build ?_))
    exact ends_behind moves_pure (ends_behind moves_tok (ends_last (ends_one (hg.ends .type))))
  · refine Ends.may (Ends.returns (ends_build ?_))
    exact ends_behind moves_pure (ends_behind (moves_of_yields yields_binaryOperator)
      (ends_last (ends_one (ends_unary hg))))

theorem ends_expression : Ends isNoSlash (expression g) :=
  ends_iterate (ends_unary hg) (mayEnd_operatorStep hg)

/-! ### Statements -/

omit hg in
theorem grows_empty : Grows empty := by
  intro t n u ht h
  obtain ⟨es, hes, rfl⟩ := build_run.1 h
  have hgrown := yields_parts (.cons yields_tok .nil) ht hes
  refine hgrown.hoisted_of_shape rfl (by decide) ?_ trivial
  obtain ⟨semicolon, v, _, htake, hend, rfl⟩ := parts_tok_run.1 hes
  obtain ⟨rfl, rfl⟩ := parts_nil_run.1 hend
  rw [(take_passes ht htake rfl).2]
  rfl

theorem grows_annotationUse : Grows (annotationUse g) :=
  grows_build (.cons yields_tok (.cons (yields_one (grows_qualifiedName false))
    (.cons (yields_optional peeks_sees (yields_one (grows_arguments hg))) .nil))) rfl rfl

theorem yields_modifiers : Yields (modifiers g) := by
  intro t es u ht h
  obtain ⟨children, v, hchildren, h⟩ := bind_run.1 h
  have hgrown := yields_manyWhile peeks_modifierAhead
    (Ensures.cond peeks_sees (yields_one (grows_annotationUse hg)) yields_tok) ht hchildren
  cases hempty : children.isEmpty with
  | true =>
      rw [hempty] at h
      cases h
      cases List.isEmpty_iff.1 hempty
      exact hgrown
  | false =>
      rw [hempty] at h
      cases h
      exact .node (hgrown.hoisted rfl rfl)

theorem grows_namedVariable : Grows (namedVariable g) :=
  grows_build (.cons yields_tok (.cons
    (yields_manyWhile peeks_sees (yields_one (grows_dimension hg false))) (.cons
      (yields_optional peeks_sees (yields_parts (.cons yields_tok (.cons (Ensures.cond peeks_sees
        (yields_one (grows_arrayInit hg)) (yields_one (hg.grows .expression))) .nil)))) .nil))) rfl rfl

theorem grows_declarators : Grows (declarators g) := by
  refine grows_commaList (.of_kind fun kind => kind = .java .namedVariable)
    (Ensures.and (grows_namedVariable hg) fun _ h => build_kind h) ?_ (by decide) rfl
  intro items hitems
  exact ⟨⟨items, hitems, rfl⟩, trivial⟩

theorem grows_localVariable : Grows (localVariable g) :=
  grows_build (.cons (yields_modifiers hg) (.cons (yields_one (grows_typeTree hg true))
    (.cons (yields_one (grows_declarators hg)) (.cons yields_tok .nil)))) rfl rfl

theorem grows_block : Grows (block g) := by
  refine grows_enclosed [manyWhile (do return !(← sees closeBrace)) (one (g .statement))]
    (.cons (yields_manyWhile (peeks_not peeks_sees) (yields_one (hg.grows .statement))) .nil) ?_
    rfl (by decide) rfl rfl
  intro t u members ht h children hchildren
  obtain ⟨_, v, _, hmembers, hend, rfl⟩ := parts_cons_run.1 h
  obtain ⟨rfl, rfl⟩ := parts_nil_run.1 hend
  have hends := manyWhile_all (peeks_not peeks_sees) (endsWith_construct hg .statement) ht hmembers
  obtain ⟨items, rfl, _⟩ := manyWhile_items (peeks_not peeks_sees) hmembers
  rw [List.append_nil] at hchildren
  exact ⟨⟨items, hchildren⟩, fun c hc => hends c (mem_of_enclosed hchildren hc)⟩

theorem grows_resource : Grows (resource g) :=
  Ensures.cond (peeks_variableAhead g)
    (grows_build (.cons (yields_modifiers hg) (.cons (yields_one (grows_typeTree hg true))
      (.cons yields_tok (.cons yields_tok (.cons (yields_one (hg.grows .expression)) .nil))))) rfl rfl)
    (grows_build (.cons (yields_one (grows_expression hg)) .nil) rfl rfl)

theorem ends_resource : Ends isNoSlash (resource g) :=
  Spans.cond (peeks_variableAhead g)
    (ends_build (ends_behind (moves_of_yields (yields_modifiers hg))
      (ends_behind (moves_of_grows (grows_typeTree hg true)) (ends_behind moves_tok
        (ends_behind moves_tok (ends_last (ends_one (hg.ends .expression))))))))
    (ends_build (ends_last (ends_one (ends_expression hg))))

omit hg in
theorem resource_kind :
    Ensures (fun _ n _ => n.kind = .java .resource) (resource g) :=
  Ensures.cond (peeks_variableAhead g) (fun _ h => build_kind h) (fun _ h => build_kind h)

theorem grows_catchClause : Grows (catchClause g) :=
  grows_build (.cons yields_tok (.cons yields_tok (.cons (yields_modifiers hg)
    (.cons (yields_one (grows_typeTree hg true)) (.cons (yields_manyWhile peeks_sees
      (yields_parts (.cons yields_tok (.cons (yields_one (hg.grows .type)) .nil))))
      (.cons yields_tok (.cons yields_tok (.cons (yields_one (grows_block hg)) .nil)))))))) rfl rfl

theorem grows_finallyClause : Grows (finallyClause g) :=
  grows_build (.cons yields_tok (.cons (yields_one (grows_block hg)) .nil)) rfl rfl

theorem grows_tryResources :
    Grows (delimited .tryResources "(" ")" .semicolon (resource g)) := by
  refine grows_delimited
    (.endsWith (K := fun kind => kind = .java .resource) (p := isNoSlash) isNoSlash_lead)
    (fun ht hn => ⟨grows_resource hg ht hn, resource_kind ht hn,
      endsWith_of_grown (grows_resource hg ht hn) (ends_resource hg _ _ _ ht hn)⟩) ?_ rfl (by decide) rfl
    rfl
  intro children items hitems hchildren
  refine ⟨⟨items, fun n hn => (hitems n hn).1, hchildren⟩, fun c hc => ?_⟩
  exact (hitems c (by simpa using mem_of_enclosed hchildren hc)).2

theorem grows_tryStatement : Grows (tryStatement g) := by
  refine Extends.grows (Extends.bind yields_tok fun keyword => ?_)
  refine Extends.bind (yields_optional peeks_sees (yields_one (grows_tryResources hg)))
    fun resources => ?_
  refine Extends.bind (yields_one (grows_block hg)) fun body => ?_
  refine Extends.bind
    (yields_parts (.cons (yields_manyWhile peeks_sees (yields_one (grows_catchClause hg)))
      (.cons (yields_optional peeks_sees (yields_one (grows_finallyClause hg))) .nil)))
    fun handlers => ?_
  exact Extends.ite Extends.expected (Extends.hoisted (k := .tryStatement) rfl rfl)

theorem grows_valueStatement (keyword : String) {k : Kind} (hk : k.isPlain = true)
    (hlayout : (Tree.Kind.java k).layout = .sequence) :
    Grows (valueStatement g k keyword) :=
  grows_build (.cons yields_tok (.cons
    (yields_optional (peeks_not peeks_sees) (yields_one (hg.grows .expression)))
    (.cons yields_tok .nil))) hk hlayout

omit hg in
theorem grows_jumpStatement : Grows jumpStatement :=
  grows_build (.cons yields_tok (.cons (yields_optional peeks_test yields_tok)
    (.cons yields_tok .nil))) rfl rfl

theorem grows_ifStatement : Grows (ifStatement g) :=
  grows_build (.cons yields_tok (.cons (yields_one (grows_parenthesized hg))
    (.cons (yields_one (hg.grows .statement)) (.cons (yields_optional peeks_sees
      (yields_parts (.cons yields_tok (.cons (yields_one (hg.grows .statement)) .nil)))) .nil)))) rfl rfl

theorem grows_whileStatement : Grows (whileStatement g) :=
  grows_build (.cons yields_tok (.cons (yields_one (grows_parenthesized hg))
    (.cons (yields_one (hg.grows .statement)) .nil))) rfl rfl

omit hg in
theorem grows_rejectStatement : Grows rejectStatement := by
  intro t n u _ h
  exact absurd h fail_run

theorem grows_statement : Grows (statement g) :=
  Ensures.cond peeks_sees (grows_block hg) <|
  Ensures.cond peeks_sees grows_empty <|
  Ensures.cond peeks_sees (grows_valueStatement hg "return" rfl rfl) <|
  Ensures.cond peeks_sees (grows_valueStatement hg "throw" rfl rfl) <|
  Ensures.cond peeks_test grows_jumpStatement <|
  Ensures.cond peeks_sees (grows_ifStatement hg) <|
  Ensures.cond peeks_sees (grows_whileStatement hg) <|
  Ensures.cond peeks_sees (grows_tryStatement hg) <|
  Ensures.cond peeks_test grows_rejectStatement <|
  Ensures.cond peeks_labelAhead Ensures.fail <|
  Ensures.cond (peeks_variableAhead g) (grows_localVariable hg) <|
  grows_build (.cons (yields_one (grows_expression hg)) (.cons yields_tok .nil)) rfl rfl

/-! ### Last tokens of statements -/

omit hg in
theorem ends_empty : Ends endsClause empty :=
  ends_build (ends_last (clause_take (.inl rfl)))

theorem ends_block : Ends endsClause (block g) :=
  ends_build (ends_behind moves_tok (ends_behind
    (moves_of_yields (yields_manyWhile (peeks_not peeks_sees) (yields_one (hg.grows .statement))))
    (ends_last (clause_take (.inr rfl)))))

theorem ends_valueStatement {k : Kind} (keyword : String) :
    Ends endsClause (valueStatement g k keyword) :=
  ends_build (ends_behind moves_tok (ends_behind
    (moves_of_yields (yields_optional (peeks_not peeks_sees) (yields_one (hg.grows .expression))))
    (ends_last (clause_take (.inl rfl)))))

omit hg in
theorem ends_jumpStatement : Ends endsClause jumpStatement :=
  ends_build (ends_behind moves_tok (ends_behind
    (moves_of_yields (yields_optional peeks_test yields_tok))
    (ends_last (clause_take (.inl rfl)))))

theorem ends_ifStatement : Ends endsClause (ifStatement g) :=
  ends_build (ends_behind moves_tok (ends_behind (moves_of_grows (grows_parenthesized hg))
    (ends_cons (ends_one (hg.ends .statement)) (mayEnd_last (mayEnd_optional peeks_sees
      (ends_behind moves_tok (ends_last (ends_one (hg.ends .statement)))))))))

theorem ends_whileStatement : Ends endsClause (whileStatement g) :=
  ends_build (ends_behind moves_tok (ends_behind (moves_of_grows (grows_parenthesized hg))
    (ends_last (ends_one (hg.ends .statement)))))

theorem ends_catchClause : Ends endsClause (catchClause g) :=
  ends_build (ends_behind moves_tok (ends_behind moves_tok
    (ends_behind (moves_of_yields (yields_modifiers hg))
      (ends_behind (moves_of_grows (grows_typeTree hg true)) (ends_behind
        (moves_of_yields (yields_manyWhile peeks_sees
          (yields_parts (.cons yields_tok (.cons (yields_one (hg.grows .type)) .nil)))))
        (ends_behind moves_tok (ends_behind moves_tok
          (ends_last (ends_one (ends_block hg))))))))))

theorem ends_finallyClause : Ends endsClause (finallyClause g) :=
  ends_build (ends_behind moves_tok (ends_last (ends_one (ends_block hg))))

theorem ends_tryStatement : Ends endsClause (tryStatement g) := by
  have hresources : Moves (optional (sees "(")
      (one (delimited .tryResources "(" ")" .semicolon (resource g)))) :=
    moves_of_yields (yields_optional peeks_sees (yields_one (grows_tryResources hg)))
  refine Moves.bind moves_tok fun keyword => Moves.bind hresources fun resources => ?_
  refine Ends.bind (ends_one (ends_block hg)) fun body => MayEnd.bind ?_ fun handlers => ?_
  · exact mayEnd_cons (mayEnd_manyWhile peeks_sees (ends_one (ends_catchClause hg)))
      (mayEnd_last (mayEnd_optional peeks_sees (ends_one (ends_finallyClause hg))))
  · exact Spans.ite Spans.expected mayEnd_pure

theorem ends_localVariable : Ends endsClause (localVariable g) :=
  ends_build (ends_behind (moves_of_yields (yields_modifiers hg))
    (ends_behind (moves_of_grows (grows_typeTree hg true))
      (ends_behind (moves_of_grows (grows_declarators hg))
        (ends_last (clause_take (.inl rfl))))))

omit hg in
theorem ends_rejectStatement : Ends endsClause rejectStatement :=
  fun _ _ _ _ h => absurd h fail_run

theorem ends_statement : Ends endsClause (statement g) :=
  Spans.cond peeks_sees (ends_block hg) <|
  Spans.cond peeks_sees ends_empty <|
  Spans.cond peeks_sees (ends_valueStatement hg "return") <|
  Spans.cond peeks_sees (ends_valueStatement hg "throw") <|
  Spans.cond peeks_test ends_jumpStatement <|
  Spans.cond peeks_sees (ends_ifStatement hg) <|
  Spans.cond peeks_sees (ends_whileStatement hg) <|
  Spans.cond peeks_sees (ends_tryStatement hg) <|
  Spans.cond peeks_test ends_rejectStatement <|
  Spans.cond peeks_labelAhead Spans.fail <|
  Spans.cond (peeks_variableAhead g) (ends_localVariable hg) <|
  ends_build (ends_behind (moves_of_grows (grows_expression hg))
    (ends_last (clause_take (.inl rfl))))

end

end Grammar

end Codemod.Java
