import Codemod.Proofs.Java.Productions

/-!
Whole units: the tree of a text holds exactly the tokens of the text, in order, and its nodes
have the shape of their kinds.
-/

namespace Codemod.Java

open Codemod.Tree Codemod.Java.Parser

namespace Grammar

section
variable {g : Grammar} (hg : GrowsAll g)
include hg

/-! ### Declarations -/

theorem grows_enumConstant : Grows (enumConstant g) :=
  grows_build (.cons (yields_modifiers hg) (.cons yields_tok
    (.cons (yields_optional peeks_sees (yields_one (grows_arguments hg)))
      (.cons (yields_optional peeks_sees (yields_one (grows_classBody hg))) .nil)))) rfl rfl

omit hg in
theorem enumConstants_kind {t u : Tokens} {n : Node} (h : enumConstants g t = .ok (n, u)) :
    n.kind = .java .enumConstants := by
  obtain ⟨constants, v, _, h⟩ := bind_run.1 h
  obtain ⟨ended, w, _, h⟩ := bind_run.1 h
  cases ended with
  | false =>
      cases h
      exact hoisted_kind _ _
  | true =>
      obtain ⟨semicolon, x, _, h⟩ := bind_run.1 h
      cases h
      exact hoisted_kind _ _

theorem ends_enumConstant : Ends isNoSlash (enumConstant g) :=
  ends_build (ends_behind (moves_of_yields (yields_modifiers hg)) (ends_cons noSlash_identifier
    (mayEnd_cons (mayEnd_optional peeks_sees (ends_one (ends_arguments hg)))
      (mayEnd_last (mayEnd_optional peeks_sees (ends_one (noSlash_classBody hg)))))))

/-- What a constant is: its kind, and that it does not end with a slash. -/
abbrev IsConstant (n : Node) : Prop :=
  n.kind = .java .enumConstant ∧ EndsWith isNoSlash n

omit hg in
theorem stable_isConstant : Stable IsConstant :=
  .endsWith (K := fun kind => kind = .java .enumConstant) isNoSlash_lead

theorem isConstant_enumConstant :
    Ensures (fun t n u => Grown t n u ∧ IsConstant n) (enumConstant g) :=
  fun ht hn => ⟨grows_enumConstant hg ht hn, build_kind hn,
    endsWith_of_grown (grows_enumConstant hg ht hn) (ends_enumConstant hg _ _ _ ht hn)⟩

omit hg in
theorem enumConstants_shape {constants : List Node} (h : ∀ n ∈ constants, IsConstant n) :
    KindShape .enumConstants
        (Node.hoisted (.java .enumConstants) (constants.map .node)).children ∧
      Closing .enumConstants
        (Node.hoisted (.java .enumConstants) (constants.map .node)).children := by
  obtain ⟨items, hitems, heq⟩ := hoisted_items .enumConstants stable_isConstant h
  rw [heq]
  exact ⟨.inr ⟨items, fun n hn => (hitems n hn).1, rfl⟩,
    fun c hc => (hitems c (by simpa using hc)).2⟩

theorem grows_enumConstants : Grows (enumConstants g) := by
  intro t n u ht h
  obtain ⟨constants, v, hconstants, h⟩ := bind_run.1 h
  have hlisted := listed_of_separated stable_isConstant peeks_test (isConstant_enumConstant hg) ht
    hconstants
  obtain ⟨ended, w, hended, h⟩ := bind_run.1 h
  cases peeks_sees hended
  cases ended with
  | false =>
      cases h
      exact grown_items rfl (by decide) (lexemesIn_unclosed hlisted.separated ▸ hlisted.passes)
        (separated_of_none hlisted.separated) hlisted.shaped
        (enumConstants_shape hlisted.item).1 (enumConstants_shape hlisted.item).2
  | true =>
      obtain ⟨semicolon, w, htake, h⟩ := bind_run.1 h
      cases h
      obtain ⟨hpasses, heq⟩ := take_passes (hlisted.passes.genuine ht) htake rfl
      rw [heq]
      obtain rfl | ⟨front, last, rfl⟩ := List.eq_nil_or_concat constants
      · have hnil : Separated .comma (some .semicolon) [] := .nil
        refine grown_listed [] [⟨.punct, semicolon.lead, ";"⟩] rfl (by decide) ?_ hnil nofun
          (.inl rfl) nofun
        exact hlisted.passes.trans hpasses
      · rw [List.concat_eq_append] at hlisted ⊢
        obtain ⟨hlexemes, hclosed⟩ := lexemesIn_closed semicolon.lead hlisted.separated
        have hterminated : terminated (front ++ [last]) ⟨.punct, semicolon.lead, ";"⟩ =
            (front ++ [closedBy last .semicolon ⟨.punct, semicolon.lead, ";"⟩]).map .node := by
          simp [terminated]
        rw [hterminated]
        have hitems (m : Node)
            (hm : m ∈ front ++ [closedBy last .semicolon ⟨.punct, semicolon.lead, ";"⟩]) :
            m.Everywhere Shaped ∧ IsConstant m := by
          rcases List.mem_append.1 hm with hm | hm
          · exact ⟨hlisted.shaped m (List.mem_append_left _ hm),
              hlisted.item m (List.mem_append_left _ hm)⟩
          · cases List.mem_singleton.1 hm
            exact ⟨everywhere_markers _ (hlisted.shaped last (by simp)),
              stable_isConstant.marked _ (hlisted.item last (by simp))⟩
        obtain ⟨hshape, hclosing⟩ := enumConstants_shape fun m hm => (hitems m hm).2
        exact grown_items rfl (by decide) (hlexemes ▸ hlisted.passes.trans hpasses) hclosed
          (fun m hm => (hitems m hm).1) hshape hclosing

theorem ends_enumConstants {t u : Tokens} {n : Node} (ht : t.Genuine)
    (h : enumConstants g t = .ok (n, u)) :
    isSign (u.nth 0) ";" = false ∨ EndsWith endsClause n := by
  have hn := grows_enumConstants hg ht h
  obtain ⟨constants, v, hconstants, h⟩ := bind_run.1 h
  have hlisted := listed_of_separated stable_isConstant peeks_test (isConstant_enumConstant hg) ht
    hconstants
  obtain ⟨ended, w, hended, h⟩ := bind_run.1 h
  obtain ⟨rfl, rfl⟩ := pure_run.1 ((sees_run ";" 0 v).symm.trans hended)
  cases hsees : isSign (w.nth 0) ";" with
  | false =>
      rw [hsees] at h
      cases h
      exact .inl hsees
  | true =>
      rw [hsees] at h
      obtain ⟨semicolon, w, htake, h⟩ := bind_run.1 h
      cases h
      obtain ⟨lexed, rest, hahead, rfl, rfl, hsign⟩ := takeIf_run.1 htake
      refine .inr (endsWith_of_grown hn (Tokens.Ended.behind hlisted.passes
        ⟨[], lexed, by rw [hahead]; rfl, ?_⟩))
      simp [endsClause, text_of_isSign hsign]

theorem grows_enumBody : Grows (enumBody g) := by
  refine grows_enclosed
    [one (enumConstants g), manyWhile (do return !(← sees closeBrace)) (one (g .member))]
    (.cons (yields_one (grows_enumConstants hg))
      (.cons (yields_manyWhile (peeks_not peeks_sees) (yields_one (hg.grows .member))) .nil)) ?_
    rfl (by decide) rfl rfl
  intro t u members ht h children hchildren
  obtain ⟨constants, v, _, hconstants, hrest, rfl⟩ := parts_one_run.1 h
  obtain ⟨_, w, _, hmembers, hend, rfl⟩ := parts_cons_run.1 hrest
  obtain ⟨rfl, rfl⟩ := parts_nil_run.1 hend
  have hv := (grows_enumConstants hg ht hconstants).passes.genuine ht
  have hends := manyWhile_all (peeks_not peeks_sees) (endsWith_construct hg .member) hv hmembers
  obtain ⟨items, rfl, hitems⟩ := manyWhile_items (peeks_not peeks_sees) hmembers
  rw [List.append_nil] at hchildren
  refine ⟨⟨constants, items, enumConstants_kind hconstants, fun item hitem => ?_, hchildren⟩,
    fun c hc hkind => ?_, ?_⟩
  · obtain ⟨_, _, hmember⟩ := hitems item hitem
    exact hg.member hmember
  · rcases List.mem_cons.1 (mem_of_enclosed hchildren hc) with hc | hc
    · cases hc
      exact absurd (enumConstants_kind hconstants) hkind
    · exact hends c hc
  · -- A stray semicolon behind the constants would have ended them.
    rintro opening _ member rest hrest hkind
    obtain ⟨lead, heq⟩ := hchildren
    rw [heq] at hrest
    cases items with
    | nil => cases hrest
    | cons first items =>
        cases hrest
        obtain ⟨_, hfirst⟩ := manyWhile_first (peeks_not peeks_sees) hmembers
        refine (ends_enumConstants hg ht hconstants).resolve_left fun hsees => ?_
        exact Bool.false_ne_true (hsees.symm.trans (hg.stray hfirst hkind))

theorem extends_classDeclaration (mods : List Element) :
    Extends mods (classDeclaration g mods) := by
  refine Extends.cond peeks_sees Extends.fail (Extends.cond peeks_test Extends.fail ?_)
  refine Extends.peek peeks_sees fun isEnum => ?_
  intro s t n u hs hstart hn
  obtain ⟨es, hes, rfl⟩ := build_run.1 hn
  obtain ⟨first, v, others, hfirst, hothers, rfl⟩ := parts_cons_run.1 hes
  cases hfirst
  have hyields := yields_parts (.cons yields_tok (.cons yields_tok
    (.cons (yields_optional peeks_sees (yields_one (grows_typeParameters hg)))
      (.cons (yields_optional peeks_sees (yields_one (grows_typeList hg _ (.inl rfl))))
        (.cons (yields_optional peeks_sees (yields_one (grows_typeList hg _ (.inr (.inl rfl)))))
          (.cons (Ensures.ite (yields_one (grows_enumBody hg)) (yields_one (grows_classBody hg)))
            .nil)))))) (hstart.genuine hs) hothers
  refine (hstart.append hyields).hoisted_of_shape rfl (by decide) ?_ trivial
  obtain ⟨keyword, w, _, _, hnamed, rfl⟩ := parts_tok_run.1 hothers
  obtain ⟨name, x, rest, hname, _, rfl⟩ := parts_tok_run.1 hnamed
  obtain ⟨_, _, _, _, rfl, hidentifier⟩ := takeIf_run.1 hname
  exact token_of_hoisted (.java .classDeclaration) (by simpa [isIdentifier] using hidentifier)
    (by simp)

theorem grows_parameter : Grows (parameter g) :=
  grows_build (.cons (yields_modifiers hg) (.cons (yields_one (grows_typeTree hg true))
    (.cons (yields_optional peeks_sees yields_tok) (.cons yields_tok
      (.cons (yields_manyWhile peeks_sees (yields_one (grows_dimension hg false))) .nil))))) rfl rfl

theorem grows_parameters : Grows (delimited .parameters "(" ")" .comma (parameter g)) := by
  refine grows_delimited (.of_kind fun kind => kind = .java .parameter)
    (Ensures.and (grows_parameter hg) fun _ h => build_kind h) ?_ rfl (by decide) rfl rfl
  intro children items hitems hchildren
  exact ⟨⟨items, hitems, hchildren⟩, trivial⟩

omit hg in
theorem naming_one {p : Parser Node} {t u : Tokens} {es : List Element}
    (h : one p t = .ok (es, u)) : Naming es := by
  obtain ⟨n, _, rfl⟩ := one_run.1 h
  intro t ht
  cases List.mem_singleton.1 ht

omit hg in
theorem naming_tok {p : Token → Bool} {wanted : Wanted} {t u : Tokens} {es : List Element}
    (hp : ∀ {token : Token}, p token = true → token.kind = .identifier ∨ token.text = ";")
    (h : tok (takeIf p wanted) t = .ok (es, u)) : Naming es := by
  obtain ⟨token, v, htoken, h⟩ := bind_run.1 h
  cases h
  intro t ht
  cases List.mem_singleton.1 ht
  exact hp (takeIf_passes htoken).2

omit hg in
theorem naming_name {t u : Tokens} {es : List Element} (h : tok takeIdentifier t = .ok (es, u)) :
    Naming es :=
  naming_tok (fun hp => .inl (by simpa [isIdentifier] using hp)) h

omit hg in
theorem naming_optional {c : Parser Bool} {p : Parser Node} {t u : Tokens} {es : List Element}
    (h : optional c (one p) t = .ok (es, u)) : Naming es := by
  obtain ⟨_, h | h⟩ := cond_run h
  · exact naming_one h
  · cases h
    exact nofun

omit hg in
theorem naming_modifiers {t u : Tokens} {es : List Element} (h : modifiers g t = .ok (es, u)) :
    Naming es := by
  obtain ⟨children, v, _, h⟩ := bind_run.1 h
  split_ifs at h
  · cases h
    exact nofun
  · cases h
    intro t ht
    cases List.mem_singleton.1 ht

theorem extends_methodFrom {start : List Element} (hnaming : Naming start) :
    Extends start (methodFrom g start) := by
  intro s t n u hs hstart hn
  obtain ⟨es, hes, rfl⟩ := build_run.1 hn
  obtain ⟨first, v, others, hfirst, hothers, rfl⟩ := parts_cons_run.1 hes
  cases hfirst
  have hyields := yields_parts (.cons (yields_one (grows_parameters hg))
    (.cons (yields_optional peeks_sees (yields_one (grows_typeList hg _ (.inr (.inr rfl)))))
      (.cons (yields_optional peeks_sees Ensures.fail)
        (.cons (Ensures.cond peeks_sees (yields_one (grows_block hg)) yields_tok) .nil))))
          (hstart.genuine hs) hothers
  refine (hstart.append hyields).hoisted_of_shape rfl (by decide) ?_ trivial
  refine naming_hoisted (.java .methodDeclaration) (naming_append hnaming ?_)
  obtain ⟨parameters, w, _, hparameters, hrest, rfl⟩ := parts_cons_run.1 hothers
  obtain ⟨throws, x, _, hthrows, hbehind, rfl⟩ := parts_cons_run.1 hrest
  obtain ⟨default, y, _, hdefault, hend, rfl⟩ := parts_cons_run.1 hbehind
  obtain ⟨body, z, _, hbody, hnil, rfl⟩ := parts_cons_run.1 hend
  obtain ⟨rfl, rfl⟩ := parts_nil_run.1 hnil
  have hnone : Naming default := by
    obtain ⟨_, h | h⟩ := cond_run hdefault
    · exact absurd h fail_run
    · cases h
      exact nofun
  have hbody : Naming body := by
    obtain ⟨_, h | h⟩ := cond_run hbody
    · exact naming_one h
    · exact naming_tok (fun hp => .inr (text_of_isSign hp)) h
  exact naming_append (naming_one hparameters) <| naming_append (naming_optional hthrows) <|
    naming_append hnone <| naming_append hbody nofun

theorem extends_memberFrom {mods : List Element} (hmods : Naming mods) :
    Extends mods (memberFrom g mods) := by
  intro s t n u hs hstart hn
  obtain ⟨start, v, hparts, hn⟩ := bind_run.1 hn
  obtain ⟨first, w, _, hfirst, htypes, rfl⟩ := parts_cons_run.1 hparts
  cases hfirst
  obtain ⟨typed, x, _, htyped, hnil, rfl⟩ := parts_cons_run.1 htypes
  obtain ⟨rfl, rfl⟩ := parts_nil_run.1 hnil
  have hyields := yields_optional peeks_sees (yields_one (grows_typeParameters hg))
    (hstart.genuine hs) htyped
  have hnaming : Naming (mods ++ (typed ++ [])) :=
    naming_append hmods (naming_append (naming_optional htyped) nofun)
  have hgrown : GrownAll s (mods ++ (typed ++ [])) v := by
    rw [List.append_nil]
    exact hstart.append hyields
  refine Extends.cond peeks_callAhead
    (Extends.bind_of yields_tok naming_name fun name hname => ?_) ?_
    hs hgrown hn
  · exact extends_methodFrom hg (naming_append hnaming hname)
  · refine Extends.bind_of (yields_one (grows_typeTree hg true)) naming_one fun type htype => ?_
    refine Extends.cond peeks_callAhead
      (Extends.bind_of yields_tok naming_name fun name hname => ?_) ?_
    · exact extends_methodFrom hg (naming_append (naming_append hnaming htype) hname)
    · exact extends_build (.cons (yields_one (grows_declarators hg)) (.cons yields_tok .nil)) rfl rfl

theorem grows_typeMember : Grows (typeMember g) :=
  Ensures.cond peeks_sees grows_empty <|
  Ensures.cond peeks_initializerAhead
    (grows_build (.cons (yields_optional peeks_sees yields_tok)
      (.cons (yields_one (grows_block hg)) .nil)) rfl rfl) <|
  Extends.grows <| Extends.bind_of (yields_modifiers hg) naming_modifiers fun mods hmods =>
    Extends.cond peeks_test (extends_classDeclaration hg mods) (extends_memberFrom hg hmods)

/-! ### Last tokens of members -/

theorem ends_enumBody : Ends endsClause (enumBody g) :=
  ends_build (ends_behind moves_tok (ends_behind (moves_of_grows (grows_enumConstants hg))
    (ends_behind
      (moves_of_yields (yields_manyWhile (peeks_not peeks_sees) (yields_one (hg.grows .member))))
      (ends_last (clause_take (.inr rfl))))))

theorem ends_classDeclaration (mods : List Element) :
    Ends endsClause (classDeclaration g mods) := by
  refine Spans.cond peeks_sees Spans.fail (Spans.cond peeks_test Spans.fail ?_)
  refine Moves.bind (moves_peeks peeks_sees) fun isEnum => ends_build (ends_behind moves_pure ?_)
  exact ends_behind moves_tok (ends_behind moves_tok
    (ends_behind (moves_of_yields (yields_optional peeks_sees
        (yields_one (grows_typeParameters hg))))
      (ends_behind (moves_of_yields (yields_optional peeks_sees
          (yields_one (grows_typeList hg _ (.inl rfl)))))
        (ends_behind (moves_of_yields (yields_optional peeks_sees
            (yields_one (grows_typeList hg _ (.inr (.inl rfl))))))
          (ends_last (Spans.ite (ends_one (ends_enumBody hg)) (ends_one (ends_classBody hg))))))))

theorem ends_methodFrom (start : List Element) : Ends endsClause (methodFrom g start) :=
  ends_build (ends_behind moves_pure (ends_behind (moves_of_grows (grows_parameters hg))
    (ends_behind (moves_of_yields (yields_optional peeks_sees
        (yields_one (grows_typeList hg _ (.inr (.inr rfl))))))
      (ends_behind (moves_of_yields (yields_optional peeks_sees Ensures.fail))
        (ends_last (Spans.cond peeks_sees (ends_one (ends_block hg))
          (clause_take (.inl rfl))))))))

theorem ends_memberFrom (mods : List Element) : Ends endsClause (memberFrom g mods) := by
  have hstart : Moves (parts [pure mods, optional (sees "<") (one (typeParameters g))]) :=
    moves_cons moves_pure (moves_cons (moves_of_yields (yields_optional peeks_sees
      (yields_one (grows_typeParameters hg)))) moves_pure)
  refine Moves.bind hstart fun start => Spans.cond peeks_callAhead
    (Moves.bind moves_tok fun name => ends_methodFrom hg _) ?_
  refine Moves.bind (moves_of_grows (grows_typeTree hg true)) fun type =>
    Spans.cond peeks_callAhead (Moves.bind moves_tok fun name => ends_methodFrom hg _) ?_
  exact ends_build (ends_behind moves_pure (ends_behind (moves_of_grows (grows_declarators hg))
    (ends_last (clause_take (.inl rfl)))))

theorem ends_typeMember : Ends endsClause (typeMember g) :=
  Spans.cond peeks_sees ends_empty <|
  Spans.cond peeks_initializerAhead
    (ends_build (ends_behind (moves_of_yields (yields_optional peeks_sees yields_tok))
      (ends_last (ends_one (ends_block hg))))) <|
  Moves.bind (moves_of_yields (yields_modifiers hg)) fun mods =>
    Spans.cond peeks_test (ends_classDeclaration hg mods) (ends_memberFrom hg mods)

theorem grows_topLevel : Grows (topLevel g) :=
  Ensures.cond peeks_sees grows_empty <|
  Extends.grows <| Extends.bind (yields_modifiers hg) fun mods =>
    extends_classDeclaration hg mods

end

/-! ### Kinds of members -/

section
variable {g : Grammar} {t u : Tokens} {n : Node}

theorem classDeclaration_kind {mods : List Element}
    (h : classDeclaration g mods t = .ok (n, u)) : n.kind = .java .classDeclaration := by
  obtain ⟨_, h | h⟩ := cond_run h
  · exact absurd h fail_run
  · obtain ⟨_, h | h⟩ := cond_run h
    · exact absurd h fail_run
    · obtain ⟨isEnum, _, _, h⟩ := bind_run.1 h
      exact build_kind h

theorem memberFrom_kind {mods : List Element} (h : memberFrom g mods t = .ok (n, u)) :
    n.kind = .java .methodDeclaration ∨ n.kind = .java .variableDeclaration := by
  obtain ⟨start, _, _, h⟩ := bind_run.1 h
  obtain ⟨_, h | h⟩ := cond_run h
  · obtain ⟨name, _, _, h⟩ := bind_run.1 h
    exact .inl (build_kind h)
  · obtain ⟨type, _, _, h⟩ := bind_run.1 h
    obtain ⟨_, h | h⟩ := cond_run h
    · obtain ⟨name, _, _, h⟩ := bind_run.1 h
      exact .inl (build_kind h)
    · exact .inr (build_kind h)

theorem typeMember_kind (h : typeMember g t = .ok (n, u)) :
    isSign (t.nth 0) ";" = true ∧ n.kind = .java .empty ∨
      n.kind ∈ ([.java .initializerBlock, .java .classDeclaration, .java .methodDeclaration,
        .java .variableDeclaration] : List Tree.Kind) := by
  obtain ⟨stray, v, hstray, h⟩ := bind_run.1 h
  obtain ⟨rfl, rfl⟩ := pure_run.1 ((sees_run ";" 0 t).symm.trans hstray)
  cases hsees : isSign (v.nth 0) ";" with
  | true =>
      rw [hsees] at h
      exact .inl ⟨rfl, build_kind h⟩
  | false =>
      rw [hsees] at h
      obtain ⟨_, h | h⟩ := cond_run h
      · simp [build_kind h]
      · obtain ⟨mods, _, _, h⟩ := bind_run.1 h
        obtain ⟨_, h | h⟩ := cond_run h
        · simp [classDeclaration_kind h]
        · rcases memberFrom_kind h with h | h <;> simp [h]

end

/-! ### Constructs inside each other -/

theorem growsAll_production {g : Grammar} (hg : GrowsAll g) : GrowsAll (production g) where
  grows symbol := by
    cases symbol with
    | type => exact grows_typeTree hg true
    | expression => exact grows_expression hg
    | unary => exact grows_unary hg
    | arrayInit => exact grows_arrayInit hg
    | statement => exact grows_statement hg
    | member => exact grows_typeMember hg
  type h := typeTree_kind h
  member h hkind := by
    have hmem := typeMember_kind h
    rw [hkind] at hmem
    revert hmem
    simp
  stray h hkind := by
    have hmem := typeMember_kind h
    rw [hkind] at hmem
    simpa using hmem
  ends symbol := by
    cases symbol with
    | type => exact ends_typeTree hg true
    | expression => exact ends_expression hg
    | unary => exact ends_unary hg
    | arrayInit => exact ends_arrayInit hg
    | statement => exact ends_statement hg
    | member => exact ends_typeMember hg

theorem growsAll_nested (depth : Nat) : GrowsAll (nested depth) := by
  induction depth with
  | zero =>
      exact ⟨fun _ _ _ _ _ h => absurd h fail_run, fun h => absurd h fail_run,
        fun h => absurd h fail_run, fun h => absurd h fail_run, fun _ => Spans.fail⟩
  | succ depth ih => exact growsAll_production ih

/-! ### Units -/

theorem grows_packageClause : Grows packageClause :=
  grows_build (.cons yields_tok (.cons (yields_one (grows_qualifiedName false))
    (.cons yields_tok .nil))) rfl rfl

theorem grows_importClause : Grows importClause := by
  intro t n u ht h
  obtain ⟨es, hes, rfl⟩ := build_run.1 h
  have hgrown := yields_parts (.cons yields_tok (.cons (yields_optional peeks_sees yields_tok)
    (.cons (yields_one (grows_qualifiedName true)) (.cons yields_tok .nil)))) ht hes
  refine hgrown.hoisted_of_shape rfl (by decide) ?_ trivial
  obtain ⟨word, v, _, _, hwords, rfl⟩ := parts_tok_run.1 hes
  obtain ⟨_, w, _, hstatic, hclause, rfl⟩ := parts_cons_run.1 hwords
  obtain ⟨name, x, _, hname, hrest, rfl⟩ := parts_one_run.1 hclause
  obtain ⟨semicolon, y, _, _, hend, rfl⟩ := parts_tok_run.1 hrest
  obtain ⟨rfl, rfl⟩ := parts_nil_run.1 hend
  obtain ⟨present, z, hpresent, hstatic⟩ := bind_run.1 hstatic
  cases peeks_sees hpresent
  cases present with
  | false =>
      cases hstatic
      exact ⟨[{ word with lead := "" }], name, semicolon, build_kind hname, rfl⟩
  | true =>
      obtain ⟨static, _, rfl⟩ := tok_run.1 hstatic
      exact ⟨[{ word with lead := "" }, static], name, semicolon, build_kind hname, rfl⟩

theorem peeks_more : Peeks more :=
  peeks_test

theorem ahead_eq_nil {t : Tokens} (ht : t.Genuine) (h : more t = .ok (false, t)) :
    t.ahead = [] := by
  obtain ⟨ahead, last⟩ := t
  cases ahead with
  | nil => rfl
  | cons lexed rest =>
      have hkind : (lexed.token.kind != .eof) = false := by
        simpa [more, test_run, Tokens.nth] using h
      exact absurd (by simpa using hkind) (ht lexed (by simp)).kind_ne_eof

end Grammar

/-- The node is a whole unit: declarations of a text with its end behind them. -/
structure UnitShaped (n : Node) : Prop where
  kind : n.kind = .java .compilationUnit
  untyped : n.type? = none
  children : ∃ (items : List Node) (last : Token),
    n.children = items.map .node ++ [.token last] ∧ last.kind = .eof ∧
      ∀ item ∈ items, item.Everywhere Shaped ∧ item.markers = []

theorem unitShaped_hoisted {items : List Node} {last : Token} (hlast : last.kind = .eof)
    (hitems : ∀ item ∈ items, item.Everywhere Shaped ∧ item.markers = []) :
    UnitShaped (Node.hoisted (.java .compilationUnit) (items.map .node ++ [.token last])) := by
  cases items with
  | nil => exact ⟨rfl, rfl, [], { last with lead := "" }, rfl, hlast, nofun⟩
  | cons n items =>
      refine ⟨rfl, rfl, { n with lead := "" } :: items, last, rfl, hlast, ?_⟩
      intro item hitem
      rcases List.mem_cons.1 hitem with rfl | hitem
      · obtain ⟨hn, hmarkers⟩ := hitems n (by simp)
        exact ⟨everywhere_lead hn, hmarkers⟩
      · exact hitems item (List.mem_cons_of_mem n hitem)

/-- The declarations of a unit, which take all tokens in front of the end. -/
theorem declarations_run {g : Grammar} (hg : Grammar.GrowsAll g) {t u : Tokens}
    {es : List Element} (ht : t.Genuine)
    (h : parts [optional (sees "package") (one Grammar.packageClause),
      manyWhile (sees "import") (one Grammar.importClause),
      manyWhile Grammar.more (one (Grammar.topLevel g))] t = .ok (es, u)) :
    GrownAll t es u ∧ u.ahead = [] ∧ ∃ items : List Node, es = items.map .node := by
  have hgrown := yields_parts
    (.cons (yields_optional peeks_sees (yields_one Grammar.grows_packageClause))
      (.cons (yields_manyWhile peeks_sees (yields_one Grammar.grows_importClause))
        (.cons (yields_manyWhile Grammar.peeks_more (yields_one (Grammar.grows_topLevel hg)))
          .nil))) ht h
  obtain ⟨_, v, _, hpackage, hrest, rfl⟩ := parts_cons_run.1 h
  obtain ⟨_, w, _, himports, hrest', rfl⟩ := parts_cons_run.1 hrest
  obtain ⟨_, x, _, htypes, hend, rfl⟩ := parts_cons_run.1 hrest'
  obtain ⟨rfl, rfl⟩ := parts_nil_run.1 hend
  have hends := Grammar.ahead_eq_nil (hgrown.genuine ht) (manyWhile_ends Grammar.peeks_more htypes)
  obtain ⟨imports, rfl, _⟩ := manyWhile_items peeks_sees himports
  obtain ⟨types, rfl, _⟩ := manyWhile_items Grammar.peeks_more htypes
  refine ⟨hgrown, hends, ?_⟩
  obtain ⟨present, y, hpresent, hpackage⟩ := bind_run.1 hpackage
  cases peeks_sees hpresent
  cases present with
  | false =>
      cases hpackage
      exact ⟨imports ++ types, by simp⟩
  | true =>
      obtain ⟨package, _, rfl⟩ := one_run.1 hpackage
      exact ⟨package :: (imports ++ types), by simp⟩

/-- The tree of a unit holds all tokens in order. -/
theorem unit_of_parseTokens {tokens : Tokens} {root : Node} (htokens : tokens.Genuine)
    (hlast : tokens.last.token.kind = .eof) (h : parseTokens tokens = .ok root) :
    UnitShaped root ∧ root.lexemes = tokens.toList.map Lexed.token ∧
      root.Everywhere Node.Anchored := by
  obtain ⟨⟨unit, u⟩, hunit, h⟩ := bind_eq_ok.1 h
  cases h
  obtain ⟨es, hes, rfl⟩ := build_run.1 hunit
  obtain ⟨declarations, v, _, hdeclarations, hend, rfl⟩ :=
    (parts_append_run [_, _, _] [_]).1 hes
  obtain ⟨hgrown, hahead, items, rfl⟩ :=
    declarations_run (Grammar.growsAll_nested _) htokens hdeclarations
  obtain ⟨_, w, _, hatEnd, hnil, rfl⟩ := parts_cons_run.1 hend
  cases hatEnd
  obtain ⟨rfl, rfl⟩ := parts_nil_run.1 hnil
  rw [List.append_nil]
  obtain ⟨hv, front, hfront, htaken⟩ := hgrown.passes
  have hmem : ∀ item ∈ items, item.Everywhere Shaped ∧ item.markers = [] := fun item hitem =>
    ⟨hgrown.shaped item (List.mem_map_of_mem hitem),
      hgrown.unmarked item (List.mem_map_of_mem hitem)⟩
  have hanchored : ∀ n, Element.node n ∈ items.map .node ++ [.token u.last.token] →
      n.Everywhere Shaped := by
    intro n hn
    exact (hmem n (by simpa using hn)).1
  refine ⟨unitShaped_hoisted (hv ▸ hlast) hmem, ?_, ?_⟩
  · rw [lexemes_hoisted _ fun n hn => anchored_of_everywhere (hanchored n hn)]
    show Node.lexemesIn .sequence _ = _
    have hlexemes := lexemesIn_append_tokens .sequence (items.map .node) [u.last.token]
    rw [List.map_singleton] at hlexemes
    rw [hlexemes, ← htaken, hv]
    rw [hahead, List.append_nil] at hfront
    rw [Tokens.toList, hfront, List.map_append, List.map_singleton]
  · refine everywhere_iff.2 ⟨anchored_hoisted _ fun n hn =>
      anchored_of_everywhere (hanchored n hn), fun c hc => ?_⟩
    obtain ⟨d, hd, rfl | rfl⟩ := mem_children_hoisted hc
    · exact (hanchored c hd).imp fun _ => Shaped.anchored
    · exact (everywhere_lead (hanchored d hd)).imp fun _ => Shaped.anchored

/-- The tree of a text holds the tokens of the text, each once and in order. -/
theorem unit_of_parseUnit {source : String} {root : Node} (h : parseUnit source = .ok root) :
    UnitShaped root ∧ root.Everywhere Node.Anchored ∧
      ∃ tokens, tokenize source = .ok tokens ∧
        root.lexemes = tokens.toList.map Lexed.token := by
  obtain ⟨tokens, htokens, h⟩ := bind_eq_ok.1 h
  obtain ⟨hgenuine, hlast⟩ := genuine_tokenize htokens
  obtain ⟨hshaped, hlexemes, hanchored⟩ := unit_of_parseTokens hgenuine hlast h
  exact ⟨hshaped, hanchored, tokens, htokens, hlexemes⟩

/-- The kind of each token of a unit in front of its end fits its characters. -/
theorem genuine_of_leaf {source : String} {unit : Node} (h : parseUnit source = .ok unit)
    {t : Token} (ht : t ∈ unit.leaves) (hkind : t.kind ≠ .eof) : Genuine t := by
  obtain ⟨_, _, tokens, htokens, hlexemes⟩ := unit_of_parseUnit h
  obtain ⟨hgenuine, hlast⟩ := genuine_tokenize htokens
  obtain ⟨t', ht', hsame, htext⟩ := exists_lexeme ht
  rw [hlexemes, Tokens.toList, List.map_append, List.mem_append] at ht'
  rcases ht' with ht' | ht'
  · obtain ⟨lexed, hlexed, rfl⟩ := List.mem_map.1 ht'
    have hlexedGenuine := hgenuine lexed hlexed
    exact ⟨hkind, fun hk => htext ▸ hlexedGenuine.isKeyword (hsame.trans hk),
      fun hk => htext ▸ hlexedGenuine.word (hsame.trans hk)⟩
  · obtain rfl := List.mem_singleton.1 ht'
    exact absurd (hsame.symm.trans hlast) hkind

/-- The children of the node have the shape of its kind. -/
def Formed (n : Node) : Prop :=
  ∀ kind, n.kind = .java kind → KindShape kind n.children

theorem formed_of_parseUnit {source : String} {unit : Node} (h : parseUnit source = .ok unit) :
    unit.Everywhere Formed := by
  obtain ⟨hunit, _⟩ := unit_of_parseUnit h
  obtain ⟨items, last, hchildren, _, hitems⟩ := hunit.children
  refine everywhere_iff.2 ⟨fun kind hkind => ?_, fun c hc => ?_⟩
  · rw [hunit.kind] at hkind
    cases hkind
    trivial
  · rw [hchildren] at hc
    refine (hitems c (by simpa using hc)).1.imp fun n hn kind hkind => ?_
    obtain ⟨k, hk, _, hshape⟩ := hn.kind
    rw [hkind] at hk
    cases hk
    exact hshape

/-- The children of the node end as its kind asks for. -/
def Closed (n : Node) : Prop :=
  ∀ kind, n.kind = .java kind → Closing kind n.children

theorem closed_of_parseUnit {source : String} {unit : Node} (h : parseUnit source = .ok unit) :
    unit.Everywhere Closed := by
  obtain ⟨hunit, _⟩ := unit_of_parseUnit h
  obtain ⟨items, last, hchildren, _, hitems⟩ := hunit.children
  refine everywhere_iff.2 ⟨fun kind hkind => ?_, fun c hc => ?_⟩
  · rw [hunit.kind] at hkind
    cases hkind
    trivial
  · rw [hchildren] at hc
    exact (hitems c (by simpa using hc)).1.imp fun n hn => hn.closing

theorem print_of_parseUnit {source : String} {root : Node} (h : parseUnit source = .ok root) :
    root.print = source := by
  obtain ⟨_, hanchored, tokens, htokens, hlexemes⟩ := unit_of_parseUnit h
  rw [← printTokens_lexemes hanchored, hlexemes, printTokens_tokenize htokens]

/-- Parsing loses and doubles nothing: the printer writes every token of the text with its
trivia, delimiters of lists included, once and in its place. -/
theorem parseUnit_round_trip {source : String} {root : Node} (h : parseUnit source = .ok root) :
    root.print = source ∧
      ∃ tokens, tokenize source = .ok tokens ∧
        root.lexemes = tokens.toList.map Lexed.token :=
  ⟨print_of_parseUnit h, (unit_of_parseUnit h).2.2⟩

theorem parseUnit_round_trip_delimiters :
    ∃ root, parseUnit "enum E \x7b A , B, ; int i , j; \x7d // end" = .ok root ∧
      root.print = "enum E \x7b A , B, ; int i , j; \x7d // end" := by
  have hparses :
      (parseUnit "enum E \x7b A , B, ; int i , j; \x7d // end").toOption.isSome = true := by
    decide +kernel
  cases hroot : parseUnit "enum E \x7b A , B, ; int i , j; \x7d // end" with
  | error e =>
      rw [hroot] at hparses
      cases hparses
  | ok root => exact ⟨root, rfl, (parseUnit_round_trip hroot).1⟩

end Codemod.Java
