import Codemod.Proofs.Java.GrammarDescent
import Codemod.Proofs.Java.Sifted.Declarations

/-!
Units in a sifted text: the grammar follows what is left at every level of nesting, so what is left of
a text that parses does so too.
-/

namespace Codemod.Recipes.Semicolons.Sifted

open Codemod.Tree Codemod.Java Codemod.Java.Parser Codemod.Java.Grammar

/-! ### First tokens -/

theorem apart_takeIf {r : Token → Bool} {wanted : Wanted} (hr : Leadless r)
    (h : ([TokenKind.punct, .keyword].all fun kind =>
      ["else", "catch", "finally"].all fun text => !r ⟨kind, "", text⟩) = true) :
    Fronts isApart (takeIf r wanted) :=
  fronts_takeIf.mono fun t ht => by
    cases hclause : isClause t with
    | false => rw [isApart, hclause]; rfl
    | true =>
        rw [hr.none _ h hclause] at ht
        cases ht

theorem apart_take {text : String} (h : text ∉ ["else", "catch", "finally"]) :
    Fronts isApart (take text) := by
  refine apart_takeIf (leadless_isSign text) ?_
  simp only [List.mem_cons, List.not_mem_nil, or_false, not_or] at h
  simp [isSign, Ne.symm h.1, Ne.symm h.2.1, Ne.symm h.2.2]

theorem apart_takeIdentifier : Fronts isApart takeIdentifier :=
  apart_takeIf (fun _ => rfl) rfl

theorem Fronts.starts {r : Token → Bool} {p : Parser Token} (h : Fronts r p) {k : Java.Kind}
    {ps : List (Parser (List Element))} : Fronts r (build k (tok p :: ps)) :=
  h.bind.bind.bind

section
variable (g : Grammar)

theorem apart_typeTree (dimensions : Bool) : Fronts isApart (typeTree g dimensions) := by
  have helement : Fronts isApart (elementType g) :=
    Fronts.cond peeks_test (apart_takeIf (fun _ => rfl) rfl).bind apart_takeIdentifier.bind.bind
  exact Fronts.cond peeks_sees (apart_take (by decide)).starts helement.bind.bind

theorem apart_nameOrCall : Fronts isApart (nameOrCall g) :=
  Fronts.cond peeks_sees (apart_takeIf (fun _ => rfl) rfl).starts (apart_takeIf (fun _ => rfl) rfl).starts

theorem apart_primary : Fronts isApart (primary g) :=
  Fronts.cond peeks_test (apart_takeIf (fun _ => rfl) rfl).starts <|
  Fronts.cond peeks_test (apart_nameOrCall g) <|
  Fronts.cond peeks_sees (apart_take (by decide)).bind.bind.bind <|
  Fronts.cond peeks_test (apart_typeTree g true) <|
  Fronts.cond peeks_sees (apart_take (by decide)).starts <|
  Fronts.cond peeks_sees (apart_take (by decide)).starts fun _ _ _ h => absurd h expected_run

theorem apart_unary : Fronts isApart (unary g) :=
  Fronts.cond peeks_test (apart_takeIf (fun _ => rfl) rfl).starts <|
  Fronts.cond (peeks_castAhead g) (apart_take (by decide)).starts (apart_primary g).bind

theorem apart_expression : Fronts isApart (Grammar.expression g) :=
  (apart_unary g).bind

theorem leads_modifiers : Leads isApart (modifiers g) := by
  have hmodifier : Fronts isApart (do
      if ← sees "@" then one (annotationUse g) else tok (takeIf isModifier .identifier)) :=
    Fronts.cond peeks_sees (apart_take (by decide)).starts.bind (apart_takeIf (fun _ => rfl) rfl).bind
  refine (Leads.many peeks_modifierAhead hmodifier.leads).bind fun children => ?_
  split_ifs <;> exact leads_pure _

theorem apart_localVariable : Fronts isApart (localVariable g) :=
  ((leads_modifiers g).parts (apart_typeTree g true).bind.bind).bind

theorem apart_statement : Fronts isApart (statement g) :=
  Fronts.cond peeks_sees (apart_take (by decide)).starts <|
  Fronts.cond peeks_sees (apart_take (by decide)).starts <|
  Fronts.cond peeks_sees (apart_take (by decide)).starts <|
  Fronts.cond peeks_sees (apart_take (by decide)).starts <|
  Fronts.cond peeks_test (apart_takeIf (leadless_isOneOf _) rfl).starts <|
  Fronts.cond peeks_sees (apart_take (by decide)).starts <|
  Fronts.cond peeks_sees (apart_take (by decide)).starts <|
  Fronts.cond peeks_sees (apart_take (by decide)).bind.bind <|
  Fronts.cond peeks_test (fun _ _ _ h => absurd h fail_run) <|
  Fronts.cond peeks_labelAhead (fun _ _ _ h => absurd h fail_run) <|
  Fronts.cond (peeks_variableAhead g) (apart_localVariable g) (apart_expression g).bind.bind.bind

theorem apart_classDeclaration (mods : List Element) : Fronts isApart (classDeclaration g mods) := by
  have hkeyword : Fronts isApart (tok (takeIf (isOneOf typeKeywords) .typeKeyword)) :=
    (apart_takeIf (leadless_isOneOf _) rfl).bind
  refine Fronts.cond peeks_sees (fun _ _ _ h => absurd h fail_run) (Fronts.cond peeks_test
    (fun _ _ _ h => absurd h fail_run) ((Peeks.leads peeks_sees).fronts fun _ => ?_))
  exact ((leads_pure mods).parts hkeyword.bind).bind

theorem apart_memberFrom (mods : List Element) : Fronts isApart (memberFrom g mods) := by
  have hparameters : Fronts isApart (one (typeParameters g)) := (apart_take (by decide)).starts.bind
  have hstart : Leads isApart (parts [pure mods, optional (sees "<") (one (typeParameters g))]) :=
    (leads_pure mods).bind fun _ => ((Leads.optional peeks_sees hparameters.leads).bind fun _ =>
      (leads_pure []).bind fun _ => leads_pure _).bind fun _ => leads_pure _
  rw [memberFrom]
  exact hstart.fronts fun start => Fronts.cond peeks_callAhead apart_takeIdentifier.bind.bind
    (apart_typeTree g true).bind.bind

theorem apart_typeMember : Fronts isApart (typeMember g) := by
  have hstatic : Fronts isApart (tok (take "static")) := (apart_take (by decide)).bind
  have hblock : Fronts isApart (one (block g)) := (apart_take (by decide)).starts.bind
  exact Fronts.cond peeks_sees (apart_take (by decide)).starts <|
    Fronts.cond peeks_initializerAhead
      ((Leads.optional peeks_sees hstatic.leads).parts hblock.bind).bind <|
    (leads_modifiers g).fronts fun mods =>
      Fronts.cond peeks_test (apart_classDeclaration g mods) (apart_memberFrom g mods)

/-! ### Empty statements and members -/

theorem stray_empty : Ensures Stray empty := by
  intro t n u _ h _
  obtain ⟨es, hes, -⟩ := build_run.1 h
  obtain ⟨semicolon, v, _, htake, hend, -⟩ := parts_tok_run.1 hes
  obtain ⟨-, rfl⟩ := parts_nil_run.1 hend
  obtain ⟨l, rest, ht, rfl, rfl, hl⟩ := takeIf_run.1 htake
  exact ⟨l, ht, hl⟩

theorem stray_of_kind {k : Java.Kind} {t u : Tokens} {n : Node} (h : n.kind = .java k)
    (hk : k ≠ .empty) : Stray t n u :=
  fun hempty => absurd (Tree.Kind.java.inj (h.symm.trans hempty)) hk

theorem stray_build {k : Java.Kind} (hk : k ≠ .empty) {ps : List (Parser (List Element))} :
    Ensures Stray (build k ps) :=
  fun _ h => stray_of_kind (build_kind h) hk

theorem tryStatement_kind {t u : Tokens} {n : Node} (h : tryStatement g t = .ok (n, u)) :
    n.kind = .java .tryStatement := by
  obtain ⟨keyword, _, _, h⟩ := bind_run.1 h
  obtain ⟨resources, _, _, h⟩ := bind_run.1 h
  obtain ⟨body, _, _, h⟩ := bind_run.1 h
  obtain ⟨handlers, _, _, h⟩ := bind_run.1 h
  split_ifs at h
  · exact absurd h expected_run
  · obtain ⟨rfl, -⟩ := pure_run.1 h
    exact hoisted_kind _ _

theorem stray_statement : Ensures Stray (statement g) :=
  Ensures.cond peeks_sees (stray_build (by decide)) <|
  Ensures.cond peeks_sees stray_empty <|
  Ensures.cond peeks_sees (stray_build (by decide)) <|
  Ensures.cond peeks_sees (stray_build (by decide)) <|
  Ensures.cond peeks_test (stray_build (by decide)) <|
  Ensures.cond peeks_sees (stray_build (by decide)) <|
  Ensures.cond peeks_sees (stray_build (by decide)) <|
  Ensures.cond peeks_sees (fun _ h => stray_of_kind (tryStatement_kind g h) (by decide)) <|
  Ensures.cond peeks_test Ensures.fail <|
  Ensures.cond peeks_labelAhead Ensures.fail <|
  Ensures.cond (peeks_variableAhead g) (stray_build (by decide))
    (stray_build (by decide))

theorem stray_typeMember : Ensures Stray (typeMember g) := by
  refine Ensures.cond peeks_sees stray_empty (Ensures.cond peeks_initializerAhead
    (stray_build (by decide)) fun _ h => ?_)
  obtain ⟨mods, _, _, h⟩ := bind_run.1 h
  obtain ⟨_, h | h⟩ := cond_run h
  · exact stray_of_kind (classDeclaration_kind h) nofun
  · exact (memberFrom_kind h).elim (stray_of_kind · nofun) (stray_of_kind · nofun)

end

/-! ### Constructs inside each other -/

theorem sound_production {g : Grammar} (hg : Sound g) : Sound (production g) where
  toGrowsAll := growsAll_production hg.toGrowsAll
  follows s := by
    intro ι
    cases s with
    | type => exact follows_typeTree hg true
    | expression => exact follows_expression hg
    | unary => exact follows_unary hg
    | arrayInit => exact follows_arrayInit hg
    | statement => exact follows_statement hg
    | member => exact follows_typeMember hg
  echoes hs hs' := echoes_typeTree hs hs' (hg.echoes hs hs') true
  front {s} hs := by
    cases s with
    | statement => exact apart_statement g
    | member => exact apart_typeMember g
    | _ => cases hs
  empty {s} hs := by
    cases s with
    | statement => exact stray_statement g
    | member => exact stray_typeMember g
    | _ => cases hs

theorem sound_nested (depth : Nat) : Sound (nested depth) := by
  induction depth with
  | zero =>
      exact ⟨growsAll_nested 0, fun _ => follows_fail, fun _ _ => echoes_fail,
        fun _ _ _ _ h => absurd h fail_run, fun _ _ _ _ _ h => absurd h fail_run⟩
  | succ depth ih => exact sound_production ih

/-! ### Units -/

theorem follows_declarations {g : Grammar} (hg : Sound g) : FollowsAll .kept false
    (parts [optional (sees "package") (one packageClause), manyWhile (sees "import") (one importClause),
      manyWhile more (one (topLevel g))])
    fun _ : Unit => parts [optional (sees "package") (one packageClause),
      manyWhile (sees "import") (one importClause), manyWhile more (one (topLevel g))] :=
  (FollowsParts.cons (Follows.optional (blind_kept (leadless_isSign "package"))
      follows_packageClause.one.toKept) (.cons
    (Follows.many (blind_kept (leadless_isSign "import")) follows_importClause.one.toKept) (.cons
      (Follows.many (blind_kept fun _ => rfl) (follows_topLevel hg).one.toKept)
        .nil))).parts

theorem unit_run {g : Grammar} (hg : Sound g) {t u : Tokens} {n : Node} (ht : t.Genuine)
    (h : compilationUnit g t = .ok (n, u)) :
    ∃ F, t.ahead = F.map Prod.fst ∧ keptNode n = Sifting.words F ++ [t.last.token.word] ∧
      Fits false F ∧ ∀ {t'}, Sifts F t t' → ∃ n' u', compilationUnit g t' = .ok (n', u') := by
  obtain ⟨es, hes, rfl⟩ := build_run.1 h
  obtain ⟨declarations, v, _, hdeclarations, hend, rfl⟩ := (parts_append_run [_, _, _] [_]).1 hes
  obtain ⟨-, hahead, -⟩ := declarations_run hg.toGrowsAll ht hdeclarations
  obtain ⟨F, ws, hws, hF, hruns⟩ := (follows_declarations hg).run ht hdeclarations
  obtain ⟨_, w, _, hatEnd, hnil, rfl⟩ := parts_cons_run.1 hend
  cases hatEnd
  obtain ⟨rfl, rfl⟩ := parts_nil_run.1 hnil
  have hnone : Level.kept.At [] := ⟨Sifting.starts_nil, trivial⟩
  refine ⟨F, by rw [hF.ahead, hahead, List.append_nil], ?_, ?_, fun {t'} hsifts => ?_⟩
  · rw [List.append_nil, keptNode_hoisted, judgeIn_ordinary rfl rfl, keptIn_append, hF.words, ← hF.last]
    exact congrArg (· ++ [u.last.token.word]) hws.symm
  · rcases hF.fits hnone with rfl | hfits
    · trivial
    · rwa [List.append_nil] at hfits
  · rw [← List.append_nil F] at hsifts
    obtain ⟨es', v', hes', -, -⟩ := hruns () hnone hsifts
    exact ⟨_, v', build_run.2 ⟨_, (parts_append_run [_, _, _] [_]).2 ⟨es', v', _, hes', rfl, rfl⟩, rfl⟩⟩

/-- How deep constructs may stand inside each other makes no difference if it is as many levels as there
are tokens. -/
theorem compilationUnit_deep {depth depth' : Nat} {t : Tokens} (h : t.ahead.length ≤ depth)
    (h' : t.ahead.length ≤ depth') :
    compilationUnit (nested depth') t = compilationUnit (nested depth) t := by
  have hlevels : ∀ (s : Symbol) {b : Bool},
      Descends t.ahead.length b (nested depth s) (nested depth' s) := fun s b => by
    rw [nested_eq depth, nested_eq depth']
    exact descends_levels h h' _ _ s
  exact (descends_compilationUnit hlevels t (Nat.lt_succ_self t.ahead.length)).1

theorem Sifts.length_le {F : Sifting} {t t' : Tokens} (h : Sifts F t t') :
    t'.ahead.length ≤ t.ahead.length := by
  rw [h.left.length, h.all, Sifting.words, List.length_map, List.length_map]
  exact List.length_filter_le _ _

/-- Of the tokens of a text that parses, those that are not needless make a text that parses. -/
theorem parses_left {t : Tokens} {unit : Node} (ht : t.Genuine) (h : parseTokens t = .ok unit) :
    ∃ F, t.ahead = F.map Prod.fst ∧ kept (judge false unit) = Sifting.words F ++ [t.last.token.word] ∧
      Fits false F ∧ ∀ {t'}, Sifts F t t' → ∃ unit', parseTokens t' = .ok unit' := by
  obtain ⟨⟨n, u⟩, hn, hend⟩ := bind_eq_ok.1 h
  cases hend
  obtain ⟨F, hahead, hwords, hfits, hruns⟩ := unit_run (sound_nested _) ht hn
  refine ⟨F, hahead, hwords, hfits, fun {t'} hsifts => ?_⟩
  obtain ⟨n', u', hn'⟩ := hruns hsifts
  rw [compilationUnit_deep (Nat.le_succ t'.ahead.length) (hsifts.length_le.trans (Nat.le_succ _))] at hn'
  exact ⟨n', bind_eq_ok.2 ⟨(n', u'), hn', rfl⟩⟩

end Codemod.Recipes.Semicolons.Sifted
