import Codemod.Proofs.Java.Sifted.Expressions

/-!
Statements in a sifted text.
-/

namespace Codemod.Recipes.Semicolons.Sifted

open Codemod.Tree Codemod.Java Codemod.Java.Parser Codemod.Java.Grammar

/-! ### Modifiers -/

theorem inner_isModifier : Inner isModifier :=
  inner_of (fun _ => rfl) rfl

theorem blind_modifierAhead : Blind .strict modifierAhead :=
  blind_guarded (inner_isSign (by decide)) (fun _ => (leadless_isSign "@").none _ rfl)
    (blindInside_second (inner_isSign (by decide))).not
    (blind_guarded inner_isModifier (fun _ => inner_isModifier.leadless.none _ rfl)
      ((blind_kept (leadless_isSign "synchronized")).inside.cond
        (blindInside_second (inner_isSign (by decide))).not (blind_pure true).inside)
      (blind_pure false))

theorem blind_identifierThen {text : String} (h : text ≠ ";" ∧ text ≠ ")" ∧ text ≠ "\x7d") :
    Blind .strict (do if ← test isIdentifier then sees text 1 else return false) :=
  blind_guarded inner_isIdentifier (fun _ => inner_isIdentifier.leadless.none _ rfl)
    (blindInside_second (inner_isSign h)) (blind_pure false)

/-- The modifiers as one node, if there are any. -/
def modifierNode (children : List Element) : List Element :=
  if children.isEmpty then [] else [.node (Node.hoisted (.java .modifiers) children)]

theorem follows_end {ι : Type} : FollowsAll .loose true (tok (take ";")) fun _ : ι => tok (take ";") :=
  (follows_takeBound (by simp)).tok

section
variable {ι : Type} {g : Grammar} (hg : Sound g)
include hg

theorem follows_annotationUse : FollowsNode .strict (annotationUse g) fun _ : ι => annotationUse g :=
  (FollowsParts.cons (follows_take "@").tok (.cons (follows_qualifiedName false).one
    (.cons (Follows.optional (blind_sees (by decide)) (follows_arguments hg).one) .nil))).build ⟨rfl, rfl⟩

theorem follows_modifiers : FollowsAll .strict false (modifiers g) fun _ : ι => modifiers g := by
  have heq : modifiers g = (do return modifierNode (← manyWhile modifierAhead do
      if ← sees "@" then one (annotationUse g) else tok (takeIf isModifier .identifier))) := by
    rw [modifiers]
    congr 1
    funext children
    rw [modifierNode]
    split_ifs <;> rfl
  rw [heq]
  refine Follows.bind (Follows.many blind_modifierAhead (Follows.cond (blind_kept (leadless_isSign "@"))
    (follows_annotationUse hg).one (follows_takeIf inner_isModifier.leadless).tok))
    (m := fun _ => false) (fun children ws hchildren => ?_) (.inl rfl) fun _ _ h => h
  refine follows_pure rfl ?_ fun x => ?_
  · rw [modifierNode]
    split_ifs with hempty
    · rwa [List.isEmpty_iff.1 hempty] at hchildren
    · exact keepsAll_operand (keepsNode_hoisted ⟨rfl, rfl⟩ hchildren)
  · have hsame := x.2.2
    simp only [sameEmpty, modifierNode, List.isEmpty_iff] at hsame ⊢
    simp [hsame]

/-! ### Variables -/

theorem follows_namedVariable : FollowsNode .strict (namedVariable g) fun _ : ι => namedVariable g :=
  (FollowsParts.cons follows_takeIdentifier.tok (.cons
    (Follows.many (blind_sees (by decide)) (follows_dimension hg false).one) (.cons
      (Follows.optional (blind_sees (by decide)) (FollowsParts.cons (follows_take "=").tok (.cons
        (Follows.cond (blind_kept (leadless_isSign openBrace)) (follows_arrayInit hg).one
          hg.follows_expression.one) .nil)).parts) .nil))).build ⟨rfl, rfl⟩

theorem follows_declarators : Follows .strict (fun _ => false) [] KeepsNode anything (declarators g)
    fun _ : ι => declarators g :=
  Follows.commaList ⟨rfl, nofun⟩ (follows_namedVariable hg) rfl

theorem follows_localVariable : FollowsNode .loose (localVariable g) fun _ : ι => localVariable g :=
  (FollowsParts.cons (follows_modifiers hg) (.cons (follows_typeTree hg true).one
    (.cons (follows_declarators hg).one (.cons follows_end .nil)))).build ⟨rfl, rfl⟩

theorem follows_block : FollowsNode .loose (block g) fun _ : ι => block g :=
  follows_body hg (s := .statement) rfl (.inl rfl)

omit hg in
theorem answers_variableAhead (t : Tokens) : ∃ answer, variableAhead g t = .ok (answer, t) := by
  have hdeclaration : ∃ answer, declarationAhead g t = .ok (answer, t) := by
    show ∃ answer, (if isPrimitive (t.nth 0) && !isSign (t.nth 1) "." then _ else _ : Parser Bool) t = _
    split_ifs
    · exact ⟨true, rfl⟩
    · exact answers_foresee _ t
  show ∃ answer, (if isOneOf ["final", "@"] (t.nth 0) then _ else _ : Parser Bool) t = _
  split_ifs
  · exact ⟨true, rfl⟩
  · exact hdeclaration

theorem variableAhead_same {F : Sifting} {t t' : Tokens} (h : Sifts F t t') (hF : Level.kept.At F) :
    (Halts F → variableAhead g t = .ok (true, t) → variableAhead g t' = .ok (true, t')) ∧
      (variableAhead g t' = .ok (true, t') → variableAhead g t = .ok (true, t)) := by
  have hsame := (leadless_isOneOf ["final", "@"]).eq (h.front_kept hF.1)
  have heq : ∀ u : Tokens, variableAhead g u =
      (if isOneOf ["final", "@"] (u.nth 0) then pure true else declarationAhead g : Parser Bool) u :=
    fun _ => rfl
  rw [heq, heq, hsame]
  split_ifs
  · exact ⟨fun _ _ => rfl, fun _ => rfl⟩
  · exact declarationAhead_same hg.echoes h hF.2

/-- The declaration of a variable shows where its name ends. -/
theorem Follows.declared {L : Level} {p : Parser Node} {q : ι → Parser Node}
    (hp : FollowsNode L p q) (hshows : ∀ {t n u}, p t = .ok (n, u) →
      ∃ w ∈ keptNode n, isTypeToken ⟨w.1, "", w.2⟩ = false) :
    FollowsNode L (answering (variableAhead g) true p)
      fun i => answering (variableAhead g) true (q i) := by
  refine hp.answered (peeks_variableAhead g) fun hrun hws hG hH hsifts hahead => ?_
  obtain ⟨w, hw, hdull⟩ := hshows hrun
  refine (variableAhead_same hg hsifts (hG.kept (hG.moved rfl) hH)).1 ?_ hahead
  exact halts_of_screened hG.screened (hG.words.trans hws.2 ▸ hw) hdull

theorem Follows.undeclared {L : Level} {p : Parser Node} {q : ι → Parser Node}
    (hp : FollowsNode L p q) :
    FollowsNode L (answering (variableAhead g) false p)
      fun i => answering (variableAhead g) false (q i) := by
  refine hp.answered (peeks_variableAhead g) fun {t _ _ _ _ _ t'} _ _ hG hH hsifts hahead => ?_
  refine answers_of_peeks (answers_variableAhead t') fun hyes => ?_
  rw [(variableAhead_same hg hsifts (hG.kept (hG.moved rfl) hH)).2 hyes] at hahead
  cases hahead

omit hg in
theorem word_of_token {k : Java.Kind} (hk : isOrdinary k) {es : List Element} {m : Token}
    (hm : Element.token m ∈ es) : m.word ∈ keptNode (Node.hoisted (.java k) es) := by
  rw [keptNode_hoisted, judgeIn_ordinary hk.1 hk.2]
  exact List.mem_flatMap.2 ⟨_, hm, List.mem_singleton.2 rfl⟩

theorem follows_declaration : FollowsNode .loose (answering (variableAhead g) true (localVariable g))
    fun _ : ι => answering (variableAhead g) true (localVariable g) := by
  refine (follows_localVariable hg).declared hg fun {t n u} hrun => ?_
  obtain ⟨_, hes, rfl⟩ := build_run.1 hrun
  obtain ⟨mods, v, _, -, htype, rfl⟩ := parts_cons_run.1 hes
  obtain ⟨type, w, _, -, hvariables, rfl⟩ := parts_one_run.1 htype
  obtain ⟨declared, x, _, -, hend, rfl⟩ := parts_one_run.1 hvariables
  obtain ⟨m, y, _, hm, hnil, rfl⟩ := parts_tok_run.1 hend
  exact ⟨m.word, word_of_token ⟨rfl, rfl⟩ (by simp), dull_of_isSign (takeIf_passes hm).2 (by simp)⟩

theorem follows_resource : FollowsNode .strict (resource g) fun _ : ι => resource g := by
  have hdeclared : FollowsNode .strict (build .resource [modifiers g, one (typeTree g true),
      tok takeIdentifier, tok (take "="), one (g .expression)]) fun _ : ι => build .resource [modifiers g,
        one (typeTree g true), tok takeIdentifier, tok (take "="), one (g .expression)] :=
    (FollowsParts.cons (follows_modifiers hg) (.cons (follows_typeTree hg true).one
      (.cons follows_takeIdentifier.tok (.cons (follows_take "=").tok
        (.cons hg.follows_expression.one .nil))))).build ⟨rfl, rfl⟩
  refine Follows.answers (peeks_variableAhead g) (hdeclared.declared hg fun {t n u} hrun => ?_)
    (((FollowsParts.cons (follows_expression hg).one .nil).build
      (k := .resource) ⟨rfl, rfl⟩).undeclared hg)
  obtain ⟨_, hes, rfl⟩ := build_run.1 hrun
  obtain ⟨mods, v, _, -, htype, rfl⟩ := parts_cons_run.1 hes
  obtain ⟨type, w, _, -, hname, rfl⟩ := parts_one_run.1 htype
  obtain ⟨name, x, _, -, hsign, rfl⟩ := parts_tok_run.1 hname
  obtain ⟨m, y, _, hm, -, rfl⟩ := parts_tok_run.1 hsign
  exact ⟨m.word, word_of_token ⟨rfl, rfl⟩ (by simp), leadless_isTypeToken.none ["="] rfl
    (List.any_eq_true.2 ⟨_, by simp, (takeIf_passes hm).2⟩)⟩

theorem follows_catchClause : FollowsNode .loose (catchClause g) fun _ : ι => catchClause g :=
  (FollowsParts.cons (follows_take "catch").tok (.cons (follows_take "(").tok
    (.cons (follows_modifiers hg) (.cons (follows_typeTree hg true).one (.cons
      (Follows.many (blind_sees (by decide))
        (FollowsParts.cons (follows_take "|").tok (.cons hg.follows_type.one .nil)).parts)
      (.cons follows_takeIdentifier.tok (.cons (follows_take ")").tok
        (.cons (follows_block hg).one .nil)))))))).build ⟨rfl, rfl⟩

theorem follows_finallyClause : FollowsNode .loose (finallyClause g) fun _ : ι => finallyClause g :=
  (FollowsParts.cons (follows_take "finally").tok (.cons (follows_block hg).one .nil)).build ⟨rfl, rfl⟩

end

/-! ### Resources -/

/-- The words of resources, of which the last one loses its terminator. -/
def keptResources : List (Node × Option Token) → List Word
  | [] => []
  | [x] => keptNode x.1
  | x :: pairs => keptNode x.1 ++ x.2.toList.map Token.word ++ keptResources pairs

theorem keptResources_cons (x : Node × Option Token) {pairs : List (Node × Option Token)}
    (h : pairs ≠ []) : keptResources (x :: pairs) =
      keptNode x.1 ++ x.2.toList.map Token.word ++ keptResources pairs := by
  cases pairs with
  | nil => exact absurd rfl h
  | cons y pairs => rfl

theorem keptResources_concat (front : List (Node × Option Token)) (x : Node × Option Token) :
    keptResources (front ++ [x]) = keptPairs front ++ keptNode x.1 := by
  induction front with
  | nil => rfl
  | cons y front ih =>
      rw [List.cons_append, keptResources_cons _ (by simp), ih]
      simp [keptPairs]

theorem keptNode_resources {first last : Token} {pairs : List (Node × Option Token)}
    (hfirst : isSign first "(" = true) (hlast : isSign last ")" = true) (h : Paired .semicolon pairs) :
    keptNode (Node.hoisted (.java .tryResources) ([first].map .token ++
      ((withSeparators .semicolon pairs).map .node ++ [last].map .token))) =
        first.word :: (keptResources pairs ++ [last.word]) := by
  have hdrops : ∀ {t : Token}, t.text ≠ ";" → isTerminator (.java .tryResources) false t = false :=
    fun h => by simp [isTerminator, h]
  have hfirst' := hdrops (t := first) (by rw [text_of_isSign hfirst]; decide)
  have hlast' := hdrops (t := last) (by rw [text_of_isSign hlast]; decide)
  rw [keptNode_hoisted, judgeIn_between rfl]
  refine (keptBetween_token hfirst' _).trans (congrArg (first.word :: ·) ?_)
  obtain rfl | ⟨front, ⟨n, token?⟩, rfl, hfront, hx⟩ := h
  · refine (keptBetween_tokens _ _ [last]).trans ?_
    simp [hlast', keptResources]
  · rw [withSeparators_concat]
    refine (keptBetween_concat hfront _ [last]).trans ?_
    have hnone : (token?.toList.filter fun t => !isTerminator (.java .tryResources) false t) = [] := by
      rw [List.filter_eq_nil_iff]
      intro t ht
      obtain ⟨lead, rfl⟩ := hx.2 t (Option.mem_toList.1 ht)
      simp [isTerminator, Delimiter.text]
    rw [tokensBehind_lastPair hx (Option.some_ne_none _).symm, hnone, keptNode_lastPair,
      keptResources_concat]
    simp [hlast']

/-- What closes a list stands in front. -/
def ClosesList (H : Sifting) : Prop :=
  ∃ l H', H = (l, false) :: H' ∧ isSign l.token ")" = true ∧ Fits false H'

theorem ClosesList.fits {H : Sifting} (h : ClosesList H) : Fits false H := by
  obtain ⟨l, H', rfl, hl, hfits⟩ := h
  exact fits_bound hfits _

theorem ClosesList.front {H : Sifting} (h : ClosesList H) {t t' : Tokens} (hsifts : Sifts H t t') :
    isSign (t'.nth 0) ")" = true := by
  obtain ⟨l, H', rfl, hl, -⟩ := h
  obtain ⟨l', ls, -, ht', hword, -⟩ := hsifts.kept
  rw [ht']
  exact ((leadless_isSign ")").eq hword).trans hl

theorem ClosesList.no_semicolon {H : Sifting} (h : ClosesList H) {t t' : Tokens} (hsifts : Sifts H t t') :
    isSign (t'.nth 0) ";" = false :=
  (leadless_isSign ";").none [")"] rfl (List.any_eq_true.2 ⟨_, by simp, h.front hsifts⟩)

/-- The loop over the resources of a try statement. -/
abbrev resourceStep (g : Grammar) :
    List (Node × Option Token) → Parser (List (Node × Option Token) × Bool) :=
  itemStep .semicolon (sees ")") (resource g)

/-- What a list of resources takes: the terminator of the last one goes. The loop also takes what is
left. -/
structure SpentResources (g : Grammar) (t : Tokens) (pairs : List (Node × Option Token)) (u : Tokens)
    (G : Sifting) : Prop where
  last : u.last = t.last
  ahead : t.ahead = G.map Prod.fst ++ u.ahead
  words : G.words = keptResources pairs
  starts : G.Starts
  fits : ∀ {H}, ClosesList H → Fits false (G ++ H)
  runs : ∀ {H t' limit'} done', ClosesList H → Sifts (G ++ H) t t' → t'.ahead.length < limit' →
    ∃ pairs' u', repeatWithin (resourceStep g) limit' done' t' = .ok (pairs', u') ∧ Sifts H u u'

theorem resourceStep_run {g : Grammar} {done done' : List (Node × Option Token)} {more : Bool}
    {t u : Tokens} : resourceStep g done t = .ok ((done', more), u) ↔
      isSign (t.nth 0) ")" = true ∧ more = false ∧ done' = done ∧ u = t ∨
        isSign (t.nth 0) ")" = false ∧ ∃ n v, resource g t = .ok (n, v) ∧
          (isSign (v.nth 0) ";" = true ∧ more = true ∧
              (∃ token, take ";" v = .ok (token, u) ∧ done' = done ++ [(n, some token)]) ∨
            isSign (v.nth 0) ";" = false ∧ more = false ∧ done' = done ++ [(n, none)] ∧ u = v) := by
  have hbehind : ∀ {n v}, (do
        if ← sees ";" then
          let token ← take ";"
          return (done ++ [(n, some token)], true)
        else return (done ++ [(n, none)], false) : Parser _) v = .ok ((done', more), u) ↔
      isSign (v.nth 0) ";" = true ∧ more = true ∧
          (∃ token, take ";" v = .ok (token, u) ∧ done' = done ++ [(n, some token)]) ∨
        isSign (v.nth 0) ";" = false ∧ more = false ∧ done' = done ++ [(n, none)] ∧ u = v := by
    intro n v
    show (if isSign (v.nth 0) ";" then _ else _ : Parser _) v = _ ↔ _
    cases hsign : isSign (v.nth 0) ";" with
    | false =>
        simp only [Bool.false_eq_true, if_false, pure_run, Prod.mk.injEq, false_and, false_or, true_and]
        tauto
    | true =>
        rw [if_pos rfl, bind_run]
        simp [pure_run, and_assoc, and_comm, and_left_comm]
  show (if isSign (t.nth 0) ")" then _ else _ : Parser _) t = _ ↔ _
  cases hsign : isSign (t.nth 0) ")" with
  | true => simp [pure_run, and_assoc, and_left_comm, and_comm]
  | false =>
      rw [if_neg Bool.false_ne_true, bind_run]
      simp only [Bool.false_eq_true, false_and, false_or, true_and]
      exact exists_congr fun n => exists_congr fun v => and_congr_right fun _ => hbehind

section
variable {g : Grammar} {done : List (Node × Option Token)} {n : Node} {t u v : Tokens} {G : Sifting}

theorem resources_stop (hclose : isSign (t.nth 0) ")" = true) (done : List (Node × Option Token))
    (limit : Nat) : repeatWithin (resourceStep g) (limit + 1) done t = .ok (done, t) :=
  bind_run.2 ⟨_, t, resourceStep_run.2 (.inl ⟨hclose, rfl, rfl, rfl⟩), rfl⟩

theorem resources_last (hopen : isSign (t.nth 0) ")" = false) (hn : resource g t = .ok (n, v))
    (hnone : isSign (v.nth 0) ";" = false) (done : List (Node × Option Token)) (limit : Nat) :
    repeatWithin (resourceStep g) (limit + 1) done t = .ok (done ++ [(n, none)], v) :=
  bind_run.2 ⟨_, v, resourceStep_run.2 (.inr ⟨hopen, n, v, hn, .inr ⟨hnone, rfl, rfl, rfl⟩⟩), rfl⟩

theorem resources_more (hopen : isSign (t.nth 0) ")" = false) (hn : resource g t = .ok (n, v))
    {w : Tokens} {token : Token} (htoken : take ";" v = .ok (token, w))
    {pairs : List (Node × Option Token)} {limit : Nat}
    (h : repeatWithin (resourceStep g) limit (done ++ [(n, some token)]) w = .ok (pairs, u)) :
    repeatWithin (resourceStep g) (limit + 1) done t = .ok (pairs, u) := by
  have hsign : isSign (v.nth 0) ";" = true := by
    obtain ⟨l, rest, hv, -, rfl, hl⟩ := takeIf_run.1 htoken
    rw [hv]
    exact hl
  exact bind_run.2 ⟨_, w, resourceStep_run.2 (.inr ⟨hopen, n, v, hn,
    .inl ⟨hsign, rfl, token, htoken, rfl⟩⟩), h⟩

theorem spentResources_nil (t : Tokens) : SpentResources g t [] t [] where
  last := rfl
  ahead := rfl
  words := rfl
  starts := Sifting.starts_nil
  fits hH := hH.fits
  runs {H t' limit'} done' hH hsifts hlimit := by
    obtain ⟨limit', rfl⟩ := Nat.exists_eq_succ_of_ne_zero (Nat.ne_zero_of_lt hlimit)
    exact ⟨done', t', resources_stop (hH.front hsifts) done' limit', hsifts⟩

theorem SpentResources.eq_of_nil (h : SpentResources g t [] u G) : u = t := by
  have hnil : G = [] := by
    by_contra hne
    obtain ⟨m, G', rfl⟩ := h.starts.exists_cons hne
    exact absurd h.words (List.cons_ne_nil _ _)
  have hahead := h.ahead
  have hlast := h.last
  rw [hnil] at hahead
  cases t with | mk ahead last =>
  cases u with | mk ahead' last' =>
  exact congrArg₂ Tokens.mk hahead.symm hlast

theorem Spent.unclosed {ws : List Word} {G H : Sifting} (h : Spent .strict true t ws u G)
    (hopen : isSign (t.nth 0) ")" = false) (hH : Fits false H) {t' : Tokens}
    (hsifts : Sifts (G ++ H) t t') : isSign (t'.nth 0) ")" = false :=
  ((leadless_isSign ")").eq (hsifts.front_kept (h.kept (L := .strict) (h.moved rfl) hH).1)).trans hopen

section
variable (hG : Spent .strict true t (keptNode n) v G) (hopen : isSign (t.nth 0) ")" = false)
  (hruns : ∀ {H t'}, Fits false H → Sifts (G ++ H) t t' →
    ∃ n' v', resource g t' = .ok (n', v') ∧ Sifts H v v')
include hG hopen hruns

theorem SpentResources.single : SpentResources g t [(n, none)] v G where
  last := hG.last
  ahead := hG.ahead
  words := hG.words
  starts := hG.starts
  fits hH := hG.strict hH.fits
  runs {H t' limit'} done' hH hsifts hlimit := by
    obtain ⟨limit', rfl⟩ := Nat.exists_eq_succ_of_ne_zero (Nat.ne_zero_of_lt hlimit)
    obtain ⟨n', v', hn', hrest⟩ := hruns hH.fits hsifts
    exact ⟨_, v', resources_last (hG.unclosed hopen hH.fits hsifts) hn' (hH.no_semicolon hrest)
      done' limit', hrest⟩

/-- The terminator of the last resource goes, and what is left is the last resource without one. -/
theorem SpentResources.terminated {l : Lexed} (hv : v = u.cons l) (hl : isSign l.token ";" = true) :
    SpentResources g t [(n, some l.token)] u (G ++ [(l, true)]) := by
  have hfits : ∀ {H}, ClosesList H → Fits false ((l, true) :: H) := by
    rintro _ ⟨m, H, rfl, hm, hH⟩
    exact ⟨hl, List.any_eq_true.2 ⟨_, by simp, hm⟩, fits_bound hH _⟩
  refine ⟨?_, ?_, ?_, hG.starts.extend (hG.moved rfl) _, fun hH => ?_,
    fun {H t' limit'} done' hH hsifts hlimit => ?_⟩
  · rw [← hG.last, hv]
    rfl
  · rw [hG.ahead, hv]
    simp [Tokens.cons]
  · rw [Sifting.words_append, hG.words]
    exact List.append_nil _
  · rw [List.append_assoc]
    exact hG.strict (hfits hH)
  · obtain ⟨limit', rfl⟩ := Nat.exists_eq_succ_of_ne_zero (Nat.ne_zero_of_lt hlimit)
    rw [List.append_assoc] at hsifts
    obtain ⟨n', v', hn', hbehind⟩ := hruns (hfits hH) hsifts
    obtain ⟨hahead, hrest⟩ := hbehind.gone
    obtain ⟨ahead, last⟩ := u
    obtain ⟨hcons, rfl⟩ := Tokens.mk.inj (hv.symm.trans hahead)
    obtain ⟨-, rfl⟩ := List.cons.inj hcons
    exact ⟨_, v', resources_last (hG.unclosed hopen (hfits hH) hsifts) hn' (hH.no_semicolon hrest) done'
      limit', hrest⟩

theorem SpentResources.cons {l : Lexed} {w : Tokens} (hv : v = w.cons l) (hl : isSign l.token ";" = true)
    {pairs : List (Node × Option Token)} {G' : Sifting} (h : SpentResources g w pairs u G')
    (hpairs : pairs ≠ []) :
    SpentResources g t ((n, some l.token) :: pairs) u (G ++ (l, false) :: G') := by
  have hfits : ∀ {H}, ClosesList H → Fits false ((l, false) :: (G' ++ H)) :=
    fun hH => fits_bound (h.fits hH) _
  refine ⟨?_, ?_, ?_, hG.starts.extend (hG.moved rfl) _, fun hH => ?_,
    fun {H t' limit'} done' hH hsifts hlimit => ?_⟩
  · rw [h.last, ← hG.last, hv]
    rfl
  · rw [hG.ahead, hv]
    simp [Tokens.cons, h.ahead]
  · rw [Sifting.words_append, Sifting.words_kept, hG.words, h.words, keptResources_cons _ hpairs]
    simp
  · rw [List.append_assoc]
    exact hG.strict (hfits hH)
  · obtain ⟨limit', rfl⟩ := Nat.exists_eq_succ_of_ne_zero (Nat.ne_zero_of_lt hlimit)
    rw [List.append_assoc] at hsifts
    obtain ⟨n', v', hn', hbehind⟩ := hruns (hfits hH) hsifts
    have hshorter := hG.shorter (hG.moved rfl) hsifts hbehind
    rw [hv] at hbehind
    obtain ⟨m, w', hm, hrest, -⟩ := hbehind.takes_sign hl
    have hshorter' : w'.ahead.length < v'.ahead.length := takes_takeIf hm
    obtain ⟨pairs', u', hpairs', hend⟩ := h.runs (done' ++ [(n', some m)]) hH hrest
      (show w'.ahead.length < limit' by omega)
    exact ⟨pairs', u', resources_more (hG.unclosed hopen (hfits hH) hsifts) hn' hm hpairs', hend⟩

end

end

section
variable {g : Grammar} (hg : Sound g)
include hg

theorem resource_run {t v : Tokens} {n : Node} (ht : t.Genuine) (h : resource g t = .ok (n, v)) :
    n.markers = [] ∧ ∃ G, Spent .strict true t (keptNode n) v G ∧
      ∀ {H t'}, Fits false H → Sifts (G ++ H) t t' →
        ∃ n' v', resource g t' = .ok (n', v') ∧ Sifts H v v' := by
  obtain ⟨G, _, ⟨hmarkers, rfl⟩, hG, hruns⟩ := (follows_resource hg (ι := Unit)).run ht h
  refine ⟨hmarkers, G, hG, fun hH hsifts => ?_⟩
  obtain ⟨n', v', hn', hrest, -⟩ := hruns () hH hsifts
  exact ⟨n', v', hn', hrest⟩

theorem resources_run {limit : Nat} {done pairs : List (Node × Option Token)} {t u : Tokens}
    (ht : t.Genuine) (hdone : Followed .semicolon done)
    (hrun : repeatWithin (resourceStep g) limit done t = .ok (pairs, u)) :
    ∃ new G, pairs = done ++ new ∧ Paired .semicolon pairs ∧ SpentResources g t new u G := by
  induction limit generalizing done t with
  | zero => exact absurd hrun fail_run
  | succ limit ih =>
      obtain ⟨⟨done₁, more⟩, v, hround, h⟩ := bind_run.1 hrun
      rcases resourceStep_run.1 hround with ⟨-, rfl, rfl, rfl⟩ |
        ⟨hopen, n, w, hn, ⟨-, rfl, ⟨token, htoken, rfl⟩⟩ | ⟨hnone, rfl, rfl, rfl⟩⟩
      · cases h
        exact ⟨[], [], (List.append_nil _).symm, hdone.paired, spentResources_nil _⟩
      · obtain ⟨hmarkers, G, hG, hruns⟩ := resource_run hg ht hn
        have hw := hG.genuine ht
        obtain ⟨htaken, htoken'⟩ := take_passes hw htoken (by decide)
        obtain ⟨l, rest, hwl, rfl, rfl, hl⟩ := takeIf_run.1 htoken
        obtain ⟨new, G', rfl, hpaired, hG'⟩ := ih (htaken.genuine hw) (List.forall_mem_append.2 ⟨hdone,
          List.forall_mem_singleton.2 ⟨hmarkers, _, congrArg some htoken'⟩⟩) h
        have hcons : w = Tokens.cons l ⟨rest, w.last⟩ := hwl
        by_cases hnew : new = []
        · subst hnew
          rw [← hG'.eq_of_nil] at hcons
          exact ⟨[(n, some l.token)], _, by simp, hpaired, .terminated hG hopen hruns hcons hl⟩
        · exact ⟨(n, some l.token) :: new, _, by simp, hpaired, .cons hG hopen hruns hcons hl hG' hnew⟩
      · cases h
        obtain ⟨hmarkers, G, hG, hruns⟩ := resource_run hg ht hn
        exact ⟨[(n, none)], G, rfl, .inr ⟨done, _, rfl, hdone, hmarkers, nofun⟩, .single hG hopen hruns⟩

/-- The resources of a try statement in their parentheses. -/
abbrev tryResources (g : Grammar) : Parser Node :=
  delimited .tryResources "(" ")" .semicolon (resource g)

theorem tryResources_run {t u : Tokens} {n : Node} (ht : t.Genuine)
    (hrun : tryResources g t = .ok (n, u)) :
    ∃ l G, u.last = t.last ∧ t.ahead = ((l, false) :: G).map Prod.fst ++ u.ahead ∧
      Sifting.words ((l, false) :: G) = keptNode n ∧
      (∀ {H}, Fits false H → Fits false ((l, false) :: G ++ H)) ∧
      ∀ {H t'}, Fits false H → Sifts ((l, false) :: G ++ H) t t' →
        ∃ n' u', tryResources g t' = .ok (n', u') ∧ Sifts H u u' := by
  rw [tryResources, delimited_eq] at hrun ⊢
  obtain ⟨first, v, hfirst, hbehind⟩ := bind_run.1 hrun
  obtain ⟨items, w, hitems, hclose⟩ := bind_run.1 hbehind
  obtain ⟨pairs, w', hpairs, hlisted⟩ := bind_run.1 hitems
  obtain ⟨rfl, rfl⟩ := pure_run.1 hlisted
  obtain ⟨last, x, hlast, hend⟩ := bind_run.1 hclose
  obtain ⟨rfl, rfl⟩ := pure_run.1 hend
  obtain ⟨l, rest, htl, rfl, rfl, hl⟩ := takeIf_run.1 hfirst
  obtain ⟨m, others, hwm, rfl, rfl, hm⟩ := takeIf_run.1 hlast
  obtain ⟨new, G, rfl, hpaired, hG⟩ := resources_run hg
    (fun x hx => ht x (htl ▸ List.mem_cons_of_mem _ hx)) (List.forall_mem_nil _) hpairs
  have hcloses : ∀ {H}, Fits false H → ClosesList ((m, false) :: H) := fun hH => ⟨m, _, rfl, hm, hH⟩
  refine ⟨l, G ++ [(m, false)], hG.last, ?_, ?_, fun {H} hH => ?_, fun {H t'} hH hsifts => ?_⟩
  · have hahead : rest = _ := hG.ahead
    rw [htl, hahead, hwm]
    simp
  · rw [Sifting.words_kept, Sifting.words_append, hG.words, keptNode_resources hl hm hpaired]
    rfl
  · rw [List.cons_append, List.append_assoc]
    exact fits_bound (hG.fits (hcloses hH)) _
  · rw [List.cons_append, List.append_assoc, htl] at hsifts
    obtain ⟨first', v', hfirst', hbehind, -⟩ := hsifts.takes_sign hl
    obtain ⟨pairs', w', hpairs', hclose⟩ := hG.runs [] (hcloses hH) hbehind
      (Nat.lt_succ_self v'.ahead.length)
    rw [hwm] at hclose
    obtain ⟨last', u', hlast', hend, -⟩ := hclose.takes_sign hm
    exact ⟨_, u', bind_run.2 ⟨first', v', hfirst', bind_run.2 ⟨_, w', bind_run.2 ⟨pairs', w', hpairs',
      rfl⟩, bind_run.2 ⟨last', u', hlast', rfl⟩⟩⟩, hend⟩

end

/-! ### Statements -/

/-- The start of a try statement: its keyword and its resources. -/
def tryHead (g : Grammar) : Parser (List Element × List Element) := do
  let keyword ← tok (take "try")
  let resources ← optional (sees "(") (one (tryResources g))
  return (keyword, resources)

/-- The handlers of a try statement. -/
abbrev handlers (g : Grammar) : Parser (List Element) :=
  parts [manyWhile (sees "catch") (one (catchClause g)), optional (sees "finally") (one (finallyClause g))]

theorem tryStatement_eq (g : Grammar) : tryStatement g = (do
    let head ← tryHead g
    let body ← one (block g)
    let handlers ← handlers g
    if handlers.isEmpty && head.2.isEmpty then expected .handler
    else return Node.hoisted (.java .tryStatement) (head.1 ++ head.2 ++ body ++ handlers)) := by
  simp only [tryHead, bind_assoc, pure_bind]
  rfl

section
variable {ι : Type} {g : Grammar} (hg : Sound g)
include hg

theorem follows_tryHead : Follows .strict (fun _ => true) [] (fun x ws => KeepsAll (x.1 ++ x.2) ws)
    (fun x y => sameEmpty x.2 y.2) (tryHead g) fun _ : ι => tryHead g := by
  refine ⟨fun {t x u} ht hrun => ?_⟩
  obtain ⟨_, v, htry, hbehind⟩ := bind_run.1 hrun
  obtain ⟨keyword, hkeyword, rfl⟩ := tok_run.1 htry
  obtain ⟨resources, w, hresources, hend⟩ := bind_run.1 hbehind
  obtain ⟨rfl, rfl⟩ := pure_run.1 hend
  obtain ⟨l, rest, htl, rfl, rfl, hl⟩ := takeIf_run.1 hkeyword
  obtain ⟨present, v', hpresent, hlisted⟩ := bind_run.1 hresources
  obtain ⟨rfl, rfl⟩ := pure_run.1 ((sees_run "(" 0 _).symm.trans hpresent)
  have hparenthesis : Inner (isSign · "(") := inner_isSign (by decide)
  cases hfront : isSign (Tokens.nth ⟨rest, t.last⟩ 0) "(" with
  | false =>
      rw [hfront] at hlisted
      cases hlisted
      refine ⟨[(l, false)], _, rfl, .taken htl, fun _ H t' hH hsifts => ?_⟩
      rw [htl] at hsifts
      obtain ⟨keyword', v', hkeyword', hbehind, -⟩ := hsifts.takes_sign hl
      refine ⟨_, v', bind_run.2 ⟨_, v', tok_run.2 ⟨keyword', hkeyword', rfl⟩, bind_run.2 ⟨[], v',
        bind_run.2 ⟨false, v', ?_, rfl⟩, rfl⟩⟩, hbehind, Iff.rfl⟩
      rw [sees_run, (hparenthesis.front hH hbehind).trans hfront]
  | true =>
      rw [hfront] at hlisted
      obtain ⟨n, hn, rfl⟩ := one_run.1 hlisted
      obtain ⟨m, G, hlast, hahead, hwords, hfits, hruns⟩ := tryResources_run hg
        (fun x hx => ht x (htl ▸ List.mem_cons_of_mem _ hx)) hn
      refine ⟨(l, false) :: (m, false) :: G, _, ?_, ⟨hlast, ?_, rfl, .inl ?_, Sifting.starts_kept _ _,
        fun _ => List.cons_ne_nil _ _, fun hH => .inr (show Fits (isBound l.token) _ from
          fits_bound (hfits hH) _)⟩, fun _ H t' hH hsifts => ?_⟩
      · rw [Sifting.words_kept, hwords]
        exact congrArg (_ :: ·) ((keptIn_node n []).trans (List.append_nil _)).symm
      · rw [htl]
        exact congrArg (l :: ·) hahead
      · exact List.any_eq_true.2 ⟨_, by simp, hl⟩
      · rw [htl] at hsifts
        obtain ⟨keyword', v', hkeyword', hbehind, -⟩ := hsifts.takes_sign hl
        obtain ⟨n', u', hn', hend⟩ := hruns hH hbehind
        refine ⟨_, u', bind_run.2 ⟨_, v', tok_run.2 ⟨keyword', hkeyword', rfl⟩, bind_run.2 ⟨_, u',
          bind_run.2 ⟨true, v', ?_, one_run.2 ⟨n', hn', rfl⟩⟩, rfl⟩⟩, hend, by simp [sameEmpty]⟩
        rw [sees_run, (hparenthesis.front (hfits hH) hbehind).trans hfront]

theorem follows_handlers : FollowsAll .loose false (handlers g) fun _ : ι => handlers g := by
  have hclause : ∀ {text : String}, text ∈ ["catch", "finally"] → Blind .loose (sees text) := by
    intro text htext
    refine blind_clause (inner_isSign ?_) fun t ht => List.any_eq_true.2 ⟨text, ?_, ht⟩
    all_goals
      simp only [List.mem_cons, List.not_mem_nil, or_false] at htext ⊢
      rcases htext with rfl | rfl <;> decide
  exact (FollowsParts.cons (Follows.many (hclause (by simp)) (follows_catchClause hg).one)
    (.cons (Follows.optional (hclause (by simp)) (follows_finallyClause hg).one) .nil)).parts

theorem follows_tryStatement : FollowsNode .loose (tryStatement g) fun _ : ι => tryStatement g := by
  rw [tryStatement_eq]
  refine Follows.bind (follows_tryHead hg) (m := fun _ => true) ?_ (.inr fun _ => rfl)
    fun _ _ _ => rfl
  rintro ⟨keyword, resources⟩ ws hhead
  refine Follows.bind ((follows_block hg).one.behind ws) (m := fun _ => false) ?_ (.inl rfl)
    fun _ _ _ => rfl
  rintro body _ ⟨vs, hbody, rfl⟩
  refine Follows.bind ((follows_handlers hg).behind _) (m := fun _ => false) ?_ (.inl rfl)
    fun _ _ h => h
  rintro handlers _ ⟨us, hhandlers, rfl⟩
  have hempty : ∀ {xs ys : List Element}, sameEmpty xs ys → ys.isEmpty = xs.isEmpty := fun h =>
    Bool.eq_iff_iff.2 (by simpa [sameEmpty] using h)
  cases hnone : handlers.isEmpty && resources.isEmpty with
  | true => exact follows_expected
  | false =>
      refine Follows.congr (follows_pure (b := fun x => Node.hoisted (.java .tryStatement)
        (x.1.1.2.1.1 ++ x.1.1.2.1.2 ++ x.1.2.1 ++ x.2.1)) rfl (keepsNode_hoisted ⟨rfl, rfl⟩ ?_)
          fun _ => trivial) fun x => ?_
      · exact keepsAll_append (keepsAll_append hhead hbody) hhandlers
      · rw [hempty x.2.2, hempty x.1.1.2.2, hnone, if_neg Bool.false_ne_true]

omit hg in
theorem follows_empty : FollowsNode .loose empty fun _ : ι => empty :=
  (FollowsParts.cons follows_end .nil).build ⟨rfl, rfl⟩

theorem follows_valueStatement {k : Java.Kind} (hk : isOrdinary k) (keyword : String) :
    FollowsNode .loose (valueStatement g k keyword) fun _ : ι => valueStatement g k keyword :=
  (FollowsParts.cons (follows_take keyword).tok (.cons
    (Follows.optional (blind_kept (leadless_isSign ";")).not (hg.follows_expression.one.toKept))
    (.cons follows_end .nil))).build hk

omit hg in
theorem follows_jumpStatement : FollowsNode .loose jumpStatement fun _ : ι => jumpStatement :=
  (FollowsParts.cons (follows_takeIf (leadless_isOneOf _)).tok (.cons
    (Follows.optional (blind_inner inner_isIdentifier) follows_takeIdentifier.tok)
    (.cons follows_end .nil))).build ⟨rfl, rfl⟩

theorem follows_ifStatement : FollowsNode .loose (ifStatement g) fun _ : ι => ifStatement g :=
  (FollowsParts.cons (follows_take "if").tok (.cons (follows_parenthesized hg).one
    (.cons (hg.follows .statement).one (.cons (Follows.optional
      (blind_clause (inner_isSign (by decide)) fun t ht => List.any_eq_true.2 ⟨_, by simp, ht⟩)
      (FollowsParts.cons (follows_take "else").tok (.cons (hg.follows .statement).one .nil)).parts)
        .nil)))).build ⟨rfl, rfl⟩

theorem follows_whileStatement : FollowsNode .loose (whileStatement g) fun _ : ι => whileStatement g :=
  (FollowsParts.cons (follows_take "while").tok (.cons (follows_parenthesized hg).one
    (.cons (hg.follows .statement).one .nil))).build ⟨rfl, rfl⟩

theorem follows_statement : FollowsNode .loose (Grammar.statement g)
    fun _ : ι => Grammar.statement g := by
  have hsees : ∀ text, Blind .kept (sees text) := fun text => blind_kept (leadless_isSign text)
  refine Follows.cond (hsees openBrace) (follows_block hg)
    (Follows.cond (hsees ";") follows_empty
    (Follows.cond (hsees "return") (follows_valueStatement hg ⟨rfl, rfl⟩ _)
    (Follows.cond (hsees "throw") (follows_valueStatement hg ⟨rfl, rfl⟩ _)
    (Follows.cond (blind_kept (leadless_isOneOf _)) follows_jumpStatement
    (Follows.cond (hsees "if") (follows_ifStatement hg)
    (Follows.cond (hsees "while") (follows_whileStatement hg)
    (Follows.cond (hsees "try") (follows_tryStatement hg)
    (Follows.cond (blind_kept (leadless_isOneOf _)) (follows_never fun t n u h => ?_)
    (Follows.cond ((blind_identifierThen (by decide)).mono rfl) follows_fail
    (Follows.answers (peeks_variableAhead g) (follows_declaration hg) (Follows.undeclared hg ?_)))))))))))
  · obtain ⟨_, _, _, h⟩ := bind_run.1 h
    exact fail_run h
  · exact (FollowsParts.cons (follows_expression hg).one (.cons follows_end .nil)).build ⟨rfl, rfl⟩

end

end Codemod.Recipes.Semicolons.Sifted
