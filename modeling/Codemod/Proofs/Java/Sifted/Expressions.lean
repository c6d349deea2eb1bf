import Codemod.Proofs.Java.Sifted.Bodies

/-!
Names, types and expressions in a sifted text.
-/

namespace Codemod.Recipes.Semicolons.Sifted

open Codemod.Tree Codemod.Java Codemod.Java.Parser Codemod.Java.Grammar

/-! ### Tests -/

theorem blind_sees {text : String} (h : text ≠ ";" ∧ text ≠ ")" ∧ text ≠ "\x7d") :
    Blind .strict (sees text) :=
  blind_inner (inner_isSign h)

theorem inner_isIdentifier : Inner isIdentifier :=
  inner_of (fun _ => rfl) rfl

theorem inner_isPrimitive : Inner isPrimitive :=
  inner_of (fun _ => rfl) rfl

theorem blind_seesThen {text : String} {p : Token → Bool}
    (h : text ≠ ";" ∧ text ≠ ")" ∧ text ≠ "\x7d") (hopen : text ≠ openBrace) (hp : Inner p) :
    Blind .strict (do if ← sees text then test p 1 else return false) := by
  refine blind_guarded (inner_isSign h) (fun t => (leadless_isSign text).none _ ?_)
    (blindInside_second hp) (blind_pure false)
  simp [isSign, hopen.symm, h.1.symm, show closeBrace ≠ text from h.2.2.symm]

/-! ### Names and types -/

section
variable {ι : Type}

theorem follows_furtherNames :
    FollowsAll .strict false furtherNames fun _ : ι => furtherNames :=
  Follows.many (blind_seesThen (by decide) (by decide) inner_isIdentifier)
    (FollowsParts.cons (follows_take ".").tok (.cons follows_takeIdentifier.tok .nil)).parts

theorem follows_qualifiedName (allowStar : Bool) :
    FollowsNode .strict (qualifiedName allowStar) fun _ : ι => qualifiedName allowStar :=
  (FollowsParts.cons follows_takeIdentifier.tok (.cons follows_furtherNames (.cons (Follows.ite
    (Follows.optional (blind_seesThen (by decide) (by decide) (inner_isSign (by decide)))
      (FollowsParts.cons (follows_take ".").tok (.cons (follows_take "*").tok .nil)).parts)
    follows_nil) .nil))).build ⟨rfl, rfl⟩

theorem follows_brackets : FollowsAll .strict false
    (manyWhile emptyBrackets (parts [tok (take "["), tok (take "]")]))
    fun _ : ι => manyWhile emptyBrackets (parts [tok (take "["), tok (take "]")]) :=
  Follows.many (blind_seesThen (by decide) (by decide) (inner_isSign (by decide)))
    (FollowsParts.cons (follows_take "[").tok (.cons (follows_take "]").tok .nil)).parts

end

section
variable {ι : Type} {g : Grammar} (hg : Sound g)
include hg

theorem follows_wildcard : FollowsNode .strict (wildcard g) fun _ : ι => wildcard g :=
  (FollowsParts.cons (follows_take "?").tok (.cons (Follows.optional
    (blind_inner (inner_of (leadless_isOneOf ["extends", "super"]) (by decide)))
    (FollowsParts.cons (follows_takeIf (leadless_isOneOf _)).tok (.cons hg.follows_type.one .nil)).parts)
      .nil)).build ⟨rfl, rfl⟩

theorem follows_typeArguments : FollowsNode .strict (typeArguments g) fun _ : ι => typeArguments g :=
  Follows.delimited ⟨rfl, nofun⟩ hg.follows_type

theorem follows_elementType : FollowsAll .strict true (elementType g) fun _ : ι => elementType g :=
  Follows.cond (blind_kept inner_isPrimitive.leadless) (follows_takeIf inner_isPrimitive.leadless).tok
    (FollowsParts.cons follows_takeIdentifier.tok (.cons follows_furtherNames
      (.cons (Follows.optional (blind_sees (by decide)) (follows_typeArguments hg).one) .nil))).parts

theorem follows_typeTree (dimensions : Bool) :
    FollowsNode .strict (typeTree g dimensions) fun _ : ι => typeTree g dimensions :=
  Follows.cond (blind_kept (leadless_isSign "?")) (follows_wildcard hg)
    ((FollowsParts.cons (follows_elementType hg)
      (.cons (Follows.ite follows_brackets follows_nil) .nil)).build ⟨rfl, rfl⟩)

theorem follows_typeList {k : Java.Kind} (hk : isList k .comma) (keyword : String) :
    FollowsNode .strict (typeList g k keyword) fun _ : ι => typeList g k keyword :=
  Follows.keywordList hk hg.follows_type rfl

theorem follows_typeParameter : FollowsNode .strict (typeParameter g) fun _ : ι => typeParameter g :=
  (FollowsParts.cons follows_takeIdentifier.tok (.cons (Follows.optional (blind_sees (by decide))
    (FollowsParts.cons (follows_take "extends").tok (.cons hg.follows_type.one (.cons (Follows.many
      (blind_sees (by decide))
      (FollowsParts.cons (follows_take "&").tok (.cons hg.follows_type.one .nil)).parts) .nil))).parts)
        .nil)).build ⟨rfl, rfl⟩

theorem follows_typeParameters :
    FollowsNode .strict (typeParameters g) fun _ : ι => typeParameters g :=
  Follows.delimited ⟨rfl, nofun⟩ (follows_typeParameter hg)

end

/-! ### Right shifts -/

section
variable {F : Sifting} {t t' u : Tokens}

theorem isAdjacent_front {text : String} (htext : text ∈ [">", ">="]) (t : Tokens)
    (ht : t.last.token.kind = .eof) :
    isAdjacent text (t.nth 0) = (adjacent t.ahead && isSign (t.nth 0) text) := by
  obtain ⟨ahead, last⟩ := t
  cases ahead with
  | nil =>
      replace ht : last.token.kind = .eof := ht
      simp [isAdjacent, adjacent, Tokens.nth, isSign, ht]
  | cons l ahead =>
      show (isSign l.token text && l.token.lead.isEmpty) =
        (isOneOf [">", ">="] l.token && l.token.lead.isEmpty && isSign l.token text)
      cases hsign : isSign l.token text with
      | false => simp
      | true =>
          rw [show isOneOf [">", ">="] l.token = true from List.any_eq_true.2 ⟨text, htext, hsign⟩]
          simp

theorem Sifts.shift_front (h : Sifts F t t') (hF : Fits false F)
    (hshift : adjacent t'.ahead = adjacent t.ahead) (text : String) (htext : text ∈ [">", ">="]) :
    isAdjacent text (t'.nth 0) = isAdjacent text (t.nth 0) := by
  have hinner : Inner (isSign · text) := by
    refine inner_isSign ?_
    simp only [List.mem_cons, List.not_mem_nil, or_false] at htext
    rcases htext with rfl | rfl <;> decide
  have heof : t'.last.token.kind = .eof := (congrArg Prod.fst h.last).trans h.eof
  rw [isAdjacent_front htext t h.eof, isAdjacent_front htext t' heof, hshift, hinner.front hF h]

/-- The signs of a right shift behind the first one. -/
abbrev furtherShifts : List Element → Parser (List Element × Bool) :=
  manyStep (test (isAdjacent ">")) (tok (take ">"))

theorem furtherShifts_run {limit : Nat} {done es : List Element} {ds : List Word}
    (hdone : KeepsAll done ds) (hrun : repeatWithin furtherShifts limit done t = .ok (es, u)) :
    ∃ G ws, KeepsAll es (ds ++ ws) ∧ Spent .strict false t ws u G ∧
      ∀ {H t' limit'} done', Fits false H → Sifts (G ++ H) t t' →
        adjacent t'.ahead = adjacent t.ahead → t'.ahead.length < limit' →
          ∃ es' u', repeatWithin furtherShifts limit' done' t' = .ok (es', u') ∧ Sifts H u u' ∧
            adjacent u'.ahead = adjacent u.ahead := by
  -- `Follows.many` does not apply: the test looks at the trivia in front of a sign, which only stays
  -- where another sign stands before it, so each round has to hand `adjacent` on.
  induction limit generalizing done ds t with
  | zero => exact absurd hrun fail_run
  | succ limit ih =>
      obtain ⟨⟨done₁, more⟩, v, hround, h⟩ := bind_run.1 hrun
      obtain ⟨hmore, ⟨rfl, next, hnext, rfl⟩ | ⟨rfl, rfl, rfl⟩⟩ := (manyStep_run peeks_test).1 hround
      · obtain ⟨m, hm, rfl⟩ := tok_run.1 hnext
        obtain ⟨l, rest, ht, rfl, rfl, hl⟩ := takeIf_run.1 hm
        obtain ⟨G, ws, hes, hG, hruns⟩ :=
          ih (keepsAll_append hdone (show KeepsAll [.token l.token] [l.token.word] from rfl)) h
        have hone := Spent.taken ht
        refine ⟨(l, false) :: G, l.token.word :: ws, by rwa [List.append_assoc] at hes,
          (hone.append hG (.inl rfl)).weaken rfl nofun,
          fun {H t' limit'} done' hH hsifts hadj hlimit => ?_⟩
        obtain ⟨limit', rfl⟩ := Nat.exists_eq_succ_of_ne_zero (Nat.ne_zero_of_lt hlimit)
        have hanswer := (hsifts.shift_front (hone.strict (hG.strict hH)) hadj ">" (by simp)).trans
          (congrArg Prod.fst (Except.ok.inj hmore))
        rw [ht] at hsifts
        obtain ⟨m, v', hm, hsifts', hadj'⟩ := hsifts.takes_sign hl
        have hshorter : v'.ahead.length < t'.ahead.length := takes_takeIf hm
        obtain ⟨es', u', hrest, hsifts''⟩ := hruns (done' ++ [.token m]) hH hsifts'
          (hadj' hl) (show v'.ahead.length < limit' by omega)
        refine ⟨es', u', many_more peeks_test ?_ (tok_run.2 ⟨m, hm, rfl⟩) hrest, hsifts''⟩
        rw [test_run, hanswer]
      · cases h
        refine ⟨[], [], by rwa [List.append_nil], .nil .strict _,
          fun {H t' limit'} done' hH hsifts hadj hlimit => ?_⟩
        obtain ⟨limit', rfl⟩ := Nat.exists_eq_succ_of_ne_zero (Nat.ne_zero_of_lt hlimit)
        have hanswer := (hsifts.shift_front hH hadj ">" (by simp)).trans
          (congrArg Prod.fst (Except.ok.inj hmore))
        refine ⟨done', t', many_stop peeks_test ?_ done' limit', hsifts, hadj⟩
        rw [test_run, hanswer]

theorem lastShift_run {es : List Element}
    (hrun : optional (test (isAdjacent ">=")) (tok (take ">=")) t = .ok (es, u)) :
    ∃ G ws, KeepsAll es ws ∧ Spent .strict false t ws u G ∧
      ∀ {H t'}, Fits false H → Sifts (G ++ H) t t' → adjacent t'.ahead = adjacent t.ahead →
        ∃ es' u', optional (test (isAdjacent ">=")) (tok (take ">=")) t' = .ok (es', u') ∧
          Sifts H u u' := by
  obtain ⟨yes, v, hyes, hrun⟩ := bind_run.1 hrun
  obtain ⟨rfl, rfl⟩ := pure_run.1 ((test_run _ 0 t).symm.trans hyes)
  cases hadjacent : isAdjacent ">=" (v.nth 0) with
  | false =>
      rw [hadjacent] at hrun
      cases hrun
      refine ⟨[], [], rfl, .nil .strict _, fun {H t'} hH hsifts hadj => ?_⟩
      refine ⟨[], t', bind_run.2 ⟨false, t', ?_, rfl⟩, hsifts⟩
      rw [test_run, hsifts.shift_front hH hadj _ (by simp), hadjacent]
  | true =>
      rw [hadjacent] at hrun
      obtain ⟨m, hm, rfl⟩ := tok_run.1 hrun
      obtain ⟨l, rest, ht, rfl, rfl, hl⟩ := takeIf_run.1 hm
      have hone := Spent.taken ht
      refine ⟨[(l, false)], _, rfl, hone.weaken rfl nofun, fun {H t'} hH hsifts hadj => ?_⟩
      have hanswer := hsifts.shift_front (hone.strict hH) hadj ">=" (by simp)
      rw [ht] at hsifts
      obtain ⟨m, u', hm, hrest, -⟩ := hsifts.takes_sign hl
      refine ⟨_, u', bind_run.2 ⟨true, t', ?_, tok_run.2 ⟨m, hm, rfl⟩⟩, hrest⟩
      rw [test_run, hanswer, hadjacent]

theorem follows_binaryOperator {ι : Type} :
    FollowsAll .strict true binaryOperator fun _ : ι => binaryOperator := by
  refine Follows.cond (blind_kept (leadless_isSign ">")) ⟨fun {t es u} ht hrun => ?_⟩
    (follows_takeIf fun _ => rfl).tok
  obtain ⟨m, v, _, hm, hbehind, rfl⟩ := parts_tok_run.1 hrun
  obtain ⟨shifts, w, _, hshifts, hend, rfl⟩ := parts_cons_run.1 hbehind
  obtain ⟨last, x, _, hlast, hnil, rfl⟩ := parts_cons_run.1 hend
  obtain ⟨rfl, rfl⟩ := parts_nil_run.1 hnil
  obtain ⟨l, rest, htl, rfl, rfl, hl⟩ := takeIf_run.1 hm
  obtain ⟨G, ws, hG, hspent, hruns⟩ := furtherShifts_run (show KeepsAll [] [] from rfl) hshifts
  obtain ⟨G', ws', hG', hspent', hruns'⟩ := lastShift_run hlast
  have hone := Spent.taken htl
  refine ⟨[(l, false)] ++ (G ++ G'), [l.token.word] ++ (ws ++ ws'), ?_,
    hone.append (hspent.append hspent' (.inl rfl)) (.inl rfl), fun _ H t' hH hsifts => ?_⟩
  · rw [List.append_nil]
    exact keepsAll_append (show KeepsAll [.token l.token] [l.token.word] from rfl)
      (keepsAll_append hG hG')
  · rw [List.append_assoc, List.append_assoc, List.singleton_append, htl] at hsifts
    obtain ⟨m, v', hm, hsifts, hadj⟩ := hsifts.takes_sign hl
    obtain ⟨shifts', w', hshifts', hsifts, hadj⟩ := hruns [] (hspent'.strict hH) hsifts (hadj hl)
      (Nat.lt_succ_self v'.ahead.length)
    obtain ⟨last', u', hlast', hsifts⟩ := hruns' hH hsifts hadj
    exact ⟨_, u', parts_tok_run.2 ⟨m, v', _, hm, parts_cons_run.2 ⟨shifts', w', _, hshifts',
      parts_cons_run.2 ⟨last', u', _, hlast', parts_nil_run.2 ⟨rfl, rfl⟩, rfl⟩, rfl⟩, rfl⟩, hsifts,
      ⟨nofun, nofun⟩⟩

end

theorem keepsAll_operand {operand : Node} {ws : List Word} (h : KeepsNode operand ws) :
    KeepsAll [.node operand] ws :=
  h.2.trans ((keptIn_node operand []).trans (List.append_nil _)).symm

section
variable {ι : Type} {g : Grammar} (hg : Sound g)
include hg

/-! ### Expressions -/

theorem follows_arguments : FollowsNode .strict (arguments g) fun _ : ι => arguments g :=
  Follows.delimited ⟨rfl, nofun⟩ hg.follows_expression

theorem follows_parenthesized : FollowsNode .strict (parenthesized g) fun _ : ι => parenthesized g :=
  (FollowsParts.cons (follows_take "(").tok (.cons hg.follows_expression.one
    (.cons (follows_take ")").tok .nil))).build ⟨rfl, rfl⟩

theorem follows_arrayInit : FollowsNode .strict (arrayInit g) fun _ : ι => arrayInit g :=
  Follows.delimited ⟨rfl, nofun⟩ (Follows.cond (blind_kept (leadless_isSign openBrace))
    (hg.follows .arrayInit) hg.follows_expression)

theorem follows_dimension (sized : Bool) :
    FollowsNode .strict (dimension g sized) fun _ : ι => dimension g sized :=
  (FollowsParts.cons (follows_take "[").tok (.cons (Follows.ite
    (Follows.optional (blind_sees (by decide)).not hg.follows_expression.one) follows_nil)
      (.cons (follows_take "]").tok .nil))).build ⟨rfl, rfl⟩

theorem follows_classBody : FollowsNode .loose (classBody g) fun _ : ι => classBody g :=
  follows_body hg (s := .member) rfl (.inr rfl)

theorem follows_creation : FollowsNode .strict (creation g) fun _ : ι => creation g := by
  refine Follows.bind (FollowsParts.cons (follows_take "new").tok
    (.cons (follows_typeTree hg false).one .nil)).parts (M := .strict)
    (m := fun _ => false) ?_ (.inl rfl) fun _ _ _ => rfl
  intro start ws hstart
  refine Follows.cond_at (blind_sees (by decide)) (.inl rfl) ?_ ?_
  · exact (FollowsParts.cons (Follows.many (blind_sees (by decide)) (follows_dimension hg true).one)
      (.cons (Follows.optional (blind_sees (by decide)) (follows_arrayInit hg).one) .nil)).extend
        ⟨rfl, rfl⟩ hstart fun x => x.2.2
  · exact ((FollowsParts.cons (follows_arguments hg).one (.cons (Follows.optional
      (blind_sees (by decide)) ((follows_classBody hg).one.weaken rfl fun _ => id)) .nil)).extend
        ⟨rfl, rfl⟩ hstart fun x => x.2.2).weaken (M := .strict) rfl nofun

theorem follows_nameOrCall : FollowsNode .strict (nameOrCall g) fun _ : ι => nameOrCall g := by
  have hname : Inner isName := inner_of (fun _ => rfl) rfl
  refine Follows.cond_second (r := isName) (fun _ => hname.leadless.none _ rfl)
    (inner_isSign (by decide)) ?_ ?_ (fronts_build _ _) (fronts_build _ _)
  · exact (FollowsParts.cons (follows_takeIf hname.leadless).tok
      (.cons (follows_arguments hg).one .nil)).build ⟨rfl, rfl⟩
  · exact (FollowsParts.cons (follows_takeIf hname.leadless).tok .nil).build ⟨rfl, rfl⟩

theorem follows_primary : FollowsNode .strict (primary g) fun _ : ι => primary g := by
  have hliteral : Leadless isLiteral := fun _ => rfl
  have hname : Leadless isName := fun _ => rfl
  exact Follows.cond (blind_kept hliteral) 
    ((FollowsParts.cons (follows_takeIf hliteral).tok .nil).build ⟨rfl, rfl⟩)
    (Follows.cond (blind_kept hname) (follows_nameOrCall hg)
    (Follows.cond (blind_kept (leadless_isSign "new")) (follows_creation hg)
    (Follows.cond (blind_kept inner_isPrimitive.leadless) (follows_typeTree hg true)
    (Follows.cond (blind_kept (leadless_isSign "(")) (follows_parenthesized hg)
    (Follows.cond (blind_kept (leadless_isSign openBrace)) (follows_arrayInit hg)
      follows_expected)))))

theorem follows_member {operand : Node} {ws : List Word} (hoperand : KeepsNode operand ws)
    (operand' : ι → Node) : Follows .strict (fun _ => true) ws KeepsNode anything (member g operand)
      fun i => member g (operand' i) := by
  refine Follows.bind ((follows_take ".").behind ws) (m := fun _ => true) ?_ (.inl rfl)
    fun _ _ _ => rfl
  rintro dot _ ⟨_, rfl, rfl⟩
  have hname : Leadless isMemberName := fun _ => rfl
  have hstart : KeepsAll [.node operand, .token dot] (ws ++ [dot.word]) := by
    rw [KeepsAll, keptIn_node, hoperand.2]
    rfl
  refine Follows.cond (blind_kept (leadless_isOneOf _)) follows_fail (Follows.cond_second
    (r := isMemberName) (fun _ => hname.none _ rfl) (inner_isSign (by decide)) ?_ ?_
    (fronts_extend _ _ _) (fronts_extend _ _ _))
  · exact (FollowsParts.cons (follows_takeIf hname).tok
      (.cons (follows_arguments hg).one .nil)).extend ⟨rfl, rfl⟩ hstart fun _ => by simp [sameEmpty]
  · exact (FollowsParts.cons (follows_takeIf hname).tok .nil).extend ⟨rfl, rfl⟩ hstart
      fun _ => by simp [sameEmpty]

theorem follows_postfixStep {operand : Node} {ws : List Word} (hoperand : KeepsNode operand ws)
    (operand' : ι → Node) : Follows .strict Prod.snd ws (KeepsRound KeepsNode KeepsNode)
      (SameRound anything) (postfixStep g operand) fun i => postfixStep g (operand' i) := by
  have hstart := keepsAll_operand hoperand
  refine Follows.cond_at (blind_sees (by decide)) (.inl rfl) follows_fail
    (Follows.cond_at (blind_sees (by decide)) (.inl rfl) follows_fail
    (Follows.cond_at (blind_sees (by decide)) (.inl rfl) ((follows_member hg hoperand operand').round true)
    (Follows.cond_at (blind_sees (by decide)) (.inl rfl) ?_
    (Follows.cond_at (blind_inner (inner_of (leadless_isOneOf _) rfl)) (.inl rfl) ?_
      (follows_pure rfl hoperand fun _ => ⟨trivial, rfl⟩)))))
  · exact ((FollowsParts.cons (follows_take "[").tok (.cons hg.follows_expression.one
      (.cons (follows_take "]").tok .nil))).extend ⟨rfl, rfl⟩ hstart
        fun _ => by simp [sameEmpty]).round true
  · exact ((FollowsParts.cons (follows_takeIf (leadless_isOneOf _)).tok .nil).extend ⟨rfl, rfl⟩ hstart
      fun _ => by simp [sameEmpty]).round true

omit hg in
theorem primary_of_parenthesis {t : Tokens} (h : isSign (t.nth 0) "(" = true) :
    primary g t = parenthesized g t := by
  have hnone : ∀ {r : Token → Bool}, Leadless r →
      ([TokenKind.punct, .keyword].all fun kind => ["("].all fun text => !r ⟨kind, "", text⟩) = true →
        r (t.nth 0) = false := fun hr hnone => hr.none _ hnone (List.any_eq_true.2 ⟨_, by simp, h⟩)
  show (if isLiteral (t.nth 0) then _ else _ : Parser Node) t = _
  rw [hnone (r := isLiteral) (fun _ => rfl) rfl]
  show (if isName (t.nth 0) then _ else _ : Parser Node) t = _
  rw [hnone (r := isName) (fun _ => rfl) rfl]
  show (if isSign (t.nth 0) "new" then _ else _ : Parser Node) t = _
  rw [hnone (leadless_isSign "new") rfl]
  show (if isPrimitive (t.nth 0) then _ else _ : Parser Node) t = _
  rw [hnone inner_isPrimitive.leadless rfl]
  show (if isSign (t.nth 0) "(" then _ else _ : Parser Node) t = _
  rw [h]
  rfl

theorem follows_cast : FollowsNode .strict
    (answering (castAhead g) true
      (build .cast [tok (take "("), one (g .type), tok (take ")"), one (g .unary)]))
    fun _ : ι => answering (castAhead g) true
      (build .cast [tok (take "("), one (g .type), tok (take ")"), one (g .unary)]) := by
  refine Follows.answered (peeks_castAhead g) ((FollowsParts.cons (follows_take "(").tok
    (.cons hg.follows_type.one (.cons (follows_take ")").tok
      (.cons (hg.follows .unary).one .nil)))).build ⟨rfl, rfl⟩) ?_
  intro t n u ws G H t' _ _ hG hH hsifts hcast
  exact (castAhead_same hg.echoes hsifts (hG.kept (hG.moved rfl) hH)).1 hcast

/-- An operand in parentheses is closed, so that what is left of it is no cast either. -/
theorem follows_uncast : FollowsNode .strict (answering (castAhead g) false (primary g))
    fun _ : ι => answering (castAhead g) false (primary g) := by
  refine Follows.answered (peeks_castAhead g) (follows_primary hg) ?_
  intro t n u ws G H t' hrun hws hG hH hsifts hcast
  refine answers_of_peeks (answers_foresee _ t') fun hyes => ?_
  have hyes := (castAhead_same hg.echoes hsifts (hG.kept (hG.moved rfl) hH)).2 ?_ hyes
  · rw [hyes] at hcast
    cases hcast
  · intro l F hF hparenthesis
    obtain ⟨l', G', rfl⟩ := hG.starts.exists_cons (hG.moved rfl)
    cases hF
    have hfront : isSign (t.nth 0) "(" = true := by
      rw [Tokens.nth, hG.ahead]
      exact hparenthesis
    rw [primary_of_parenthesis hfront] at hrun
    obtain ⟨_, hes, rfl⟩ := build_run.1 hrun
    obtain ⟨opening, v, _, -, hoperand, rfl⟩ := parts_tok_run.1 hes
    obtain ⟨operand, w, _, -, hclosing, rfl⟩ := parts_one_run.1 hoperand
    obtain ⟨closing, x, _, hclosing, hnil, rfl⟩ := parts_tok_run.1 hclosing
    obtain ⟨rfl, rfl⟩ := parts_nil_run.1 hnil
    have hwords := hG.words.trans hws.2
    rw [keptNode_hoisted, judgeIn_ordinary rfl rfl, keptIn_token, keptIn_node] at hwords
    have hmem : closing.word ∈ Sifting.words G' := by
      have htail : Sifting.words G' = _ := (List.cons.inj hwords).2
      rw [htail]
      simp [keptIn_token]
    have hscreen : isScreen l.token = false := (leadless_isOneOf _).none ["("] rfl
      (List.any_eq_true.2 ⟨_, by simp, hparenthesis⟩)
    exact halts_of_screened (hG.screened.resolve_left (by simp [hscreen])) hmem
      (dull_of_isSign (takeIf_passes hclosing).2 (by simp))

theorem follows_unary : FollowsNode .strict (unary g) fun _ : ι => unary g := by
  have hprefix : Leadless isPrefixOperator := fun _ => rfl
  refine Follows.cond (blind_kept hprefix) ((FollowsParts.cons (follows_takeIf hprefix).tok
    (.cons (hg.follows .unary).one .nil)).build ⟨rfl, rfl⟩) ?_
  refine Follows.answers (peeks_castAhead g) (follows_cast hg) ?_
  simp only [answering_bind]
  exact (follows_uncast hg).operand fun hn n' => follows_postfixStep hg hn n'

theorem follows_operatorStep {left : Node} {ws : List Word} (hleft : KeepsNode left ws)
    (left' : ι → Node) : Follows .strict Prod.snd ws (KeepsRound KeepsNode KeepsNode)
      (SameRound anything) (operatorStep g left) fun i => operatorStep g (left' i) := by
  have hstart := keepsAll_operand hleft
  refine Follows.cond_at (blind_sees (by decide)) (.inl rfl) ?_
    (Follows.cond_at (blind_sees (by decide)) (.inl rfl) ?_
    (Follows.cond_at (blind_inner (inner_of (fun _ => rfl) rfl)) (.inl rfl) ?_
      (follows_pure rfl hleft fun _ => ⟨trivial, rfl⟩)))
  · exact ((FollowsParts.cons (follows_take "?").tok (.cons hg.follows_expression.one
      (.cons (follows_take ":").tok (.cons hg.follows_expression.one .nil)))).extend ⟨rfl, rfl⟩ hstart
        fun _ => by simp [sameEmpty]).round false
  · exact ((FollowsParts.cons (follows_take "instanceof").tok
      (.cons hg.follows_type.one .nil)).extend ⟨rfl, rfl⟩ hstart fun _ => by simp [sameEmpty]).round true
  · exact ((FollowsParts.cons follows_binaryOperator
      (.cons (follows_unary hg).one .nil)).extend ⟨rfl, rfl⟩ hstart fun _ => by simp [sameEmpty]).round true

theorem follows_expression : FollowsNode .strict (Grammar.expression g)
    fun _ : ι => Grammar.expression g :=
  (follows_unary hg).operand fun hn n' => follows_operatorStep hg hn n'

end

end Codemod.Recipes.Semicolons.Sifted
