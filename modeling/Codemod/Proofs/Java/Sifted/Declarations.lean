import Codemod.Proofs.Java.Sifted.Statements

/-!
Declarations and units in a sifted text.
-/

namespace Codemod.Recipes.Semicolons.Sifted

open Codemod.Tree Codemod.Java Codemod.Java.Parser Codemod.Java.Grammar

/-! ### Constants -/

/-- The words of constants with a terminator behind them, if there is one that stays. -/
def keptConstants (pairs : List (Node × Option Token)) (terminator? : Option Token) (ends : Bool) :
    List Word :=
  keptPairs pairs ++ if ends then [] else terminator?.toList.map Token.word

/-- The constants of an enumeration with a terminator behind them, if there is one. -/
def constantsNode (constants : List Node) (terminator? : Option Token) : Node :=
  Node.hoisted (.java .enumConstants)
    (terminator?.elim (constants.map .node) (terminated constants))

theorem filter_separator {x : Node × Option Token} (hx : Apart .comma x) (ends : Bool) :
    (x.2.toList.filter fun t => !isTerminator (.java .enumConstants) ends t) = x.2.toList := by
  rw [List.filter_eq_self]
  intro t ht
  obtain ⟨lead, rfl⟩ := hx.2 t (Option.mem_toList.1 ht)
  simp [isTerminator, Delimiter.text]

theorem tokensBehind_closedBy {x : Node × Option Token} (hx : Apart .comma x) (lead : String) :
    tokensBehind (closedBy (lastPair .comma x) .semicolon ⟨.punct, lead, ";"⟩).markers .comma
      (some .semicolon) = x.2.toList ++ [⟨.punct, lead, ";"⟩] := by
  obtain ⟨n, token?⟩ := x
  have hnone : n.markers = [] := hx.1
  cases token? with
  | none =>
      simp [lastPair, closedBy, hnone, tokensBehind, markedTokens, Markers.put, Markers.erase,
        Markers.get?, Marker.token, Delimiter.marker, Delimiter.text]
  | some t =>
      obtain ⟨before, rfl⟩ := hx.2 t rfl
      simp [lastPair, closedBy, hnone, tokensBehind, markedTokens, Markers.put, Markers.erase,
        Markers.get?, Marker.token, Delimiter.marker, Delimiter.text]

theorem kept_constants {pairs : List (Node × Option Token)} (h : Paired .comma pairs)
    {terminator? : Option Token} (hterminator : ∀ t ∈ terminator?, ∃ lead, t = ⟨.punct, lead, ";"⟩)
    (ends : Bool) :
    kept (judge ends (constantsNode (withSeparators .comma pairs) terminator?)) =
      keptConstants pairs terminator? ends := by
  rw [constantsNode, judge_hoisted, judgeIn_between rfl]
  cases terminator? with
  | none =>
      obtain rfl | ⟨front, x, rfl, hfront, hx⟩ := h
      · simp [withSeparators, keptBetween, keptConstants, keptPairs]
      · rw [withSeparators_concat, Option.elim_none, ← List.append_nil (List.map _ _)]
        refine (keptBetween_concat hfront _ []).trans ?_
        rw [tokensBehind_lastPair hx (by simp), filter_separator hx, keptNode_lastPair, keptConstants,
          keptPairs_concat]
        simp
  | some t =>
      obtain ⟨lead, rfl⟩ := hterminator t rfl
      have hdrops : isTerminator (.java .enumConstants) ends ⟨.punct, lead, ";"⟩ = ends := by
        simp [isTerminator]
      obtain rfl | ⟨front, x, rfl, hfront, hx⟩ := h
      · cases ends <;> simp [withSeparators, terminated, keptBetween, keptUnless, hdrops, keptConstants,
          keptPairs, Layout.delimiterTokens, Tree.Kind.layout]
      · have hlist := @keptBetween_concat .comma (some .semicolon)
          (isTerminator (.java .enumConstants) ends) _ hfront
          (closedBy (lastPair .comma x) .semicolon ⟨.punct, lead, ";"⟩) []
        rw [List.map_nil, List.append_nil] at hlist
        rw [withSeparators_concat, Option.elim_some, terminated, List.getLast?_concat,
          List.dropLast_concat]
        refine hlist.trans ?_
        rw [tokensBehind_closedBy hx, List.filter_append, filter_separator hx, closedBy,
          keptNode_marked, keptNode_lastPair, keptConstants, keptPairs_concat]
        cases ends <;> simp [hdrops]

/-- What goes stands in front of what closes the body. -/
def EndsBody (F : Sifting) : Prop :=
  Fits false F ∧ ((Sifting.front? F).any fun t => isSign t closeBrace) = true

theorem blind_constantsEnd : Blind .braced (test (isOneOf [";", closeBrace])) := by
  refine blind_of_front fun {F t t'} hF hsifts => ?_
  cases F with
  | nil => exact (leadless_isOneOf _).eq (hsifts.front_kept Sifting.starts_nil)
  | cons x F =>
      obtain ⟨l, _ | _⟩ := x
      · exact (leadless_isOneOf _).eq (hsifts.front_kept (Sifting.starts_kept _ _))
      · obtain ⟨token, htoken, hclose⟩ := (Option.any_eq_true _ _).1
          (hF.1.resolve_left fun hstarts => absurd (hstarts _ rfl) nofun)
        have hword : (t'.nth 0).word = token.word := by
          rw [hsifts.word_front, htoken]
          rfl
        have hsemicolon : isSign (t.nth 0) ";" = true := by
          rw [Tokens.nth, hsifts.all]
          exact hF.2.1
        have hyes : isOneOf [";", closeBrace] token = true := List.any_eq_true.2 ⟨_, by simp, hclose⟩
        have hyes' : isOneOf [";", closeBrace] (t.nth 0) = true :=
          List.any_eq_true.2 ⟨_, by simp, hsemicolon⟩
        rw [(leadless_isOneOf _).eq hword, hyes, hyes']

/-- The terminator of constants, if there is one. -/
def terminator : Parser (Option Token) := do
  if ← sees ";" then return some (← take ";") else return none

theorem terminator_none {t : Tokens} (h : isSign (t.nth 0) ";" = false) : terminator t = .ok (none, t) :=
  bind_run.2 ⟨false, t, by rw [sees_run, h], rfl⟩

theorem terminator_some {t u : Tokens} {token : Token} (h : take ";" t = .ok (token, u)) :
    terminator t = .ok (some token, u) := by
  refine bind_run.2 ⟨true, t, ?_, bind_run.2 ⟨token, u, h, rfl⟩⟩
  obtain ⟨l, rest, ht, -, rfl, hl⟩ := takeIf_run.1 h
  rw [sees_run, ht]
  exact congrArg (fun b => Except.ok (b, _)) hl

/-- What the terminator of constants takes. It goes where `ends` says that what stands behind it goes up
to the end of the body. -/
structure SpentTerminator (ends : Bool) (t : Tokens) (terminator? : Option Token) (u : Tokens)
    (G : Sifting) : Prop where
  last : u.last = t.last
  ahead : t.ahead = G.map Prod.fst ++ u.ahead
  words : G.words = if ends then [] else terminator?.toList.map Token.word
  runs : ∀ {H}, u.ahead.head? = H.head?.map Prod.fst → Fits true H → (ends = true → EndsBody H) →
    Level.braced.At (G ++ H) ∧ ∀ {t'}, Sifts (G ++ H) t t' →
      ∃ terminator' u', terminator t' = .ok (terminator', u') ∧ Sifts H u u'

theorem SpentTerminator.absent (ends : Bool) {t : Tokens} (h : isSign (t.nth 0) ";" = false) :
    SpentTerminator ends t none t [] := by
  refine ⟨rfl, rfl, by cases ends <;> rfl, fun {H} hu hH _ => ?_⟩
  have hstarts : H.Starts := Sifting.starts_of_head hu hH h
  refine ⟨⟨.inl hstarts, hstarts.fits hH⟩, fun {t'} hsifts => ⟨none, t', terminator_none ?_, hsifts⟩⟩
  rw [(leadless_isSign ";").eq (hsifts.front_kept hstarts), h]

section
variable {t : Tokens} {l : Lexed} {rest : List Lexed} (ht : t = ⟨l :: rest, t.last⟩)
  (hl : isSign l.token ";" = true)
include ht hl

theorem SpentTerminator.stays : SpentTerminator false t (some l.token) ⟨rest, t.last⟩ [(l, false)] := by
  refine ⟨rfl, by rw [ht]; rfl, rfl, fun {H} _ hH _ => ?_⟩
  have hfits : Fits false ((l, false) :: H) := by
    rwa [Fits, show isBound l.token = true from List.any_eq_true.2 ⟨_, by simp, hl⟩]
  refine ⟨⟨.inl (Sifting.starts_kept _ _), hfits⟩, fun {t'} hsifts => ?_⟩
  rw [ht] at hsifts
  obtain ⟨m, u', hm, hrest, -⟩ := hsifts.takes_sign hl
  exact ⟨some m, u', terminator_some hm, hrest⟩

theorem SpentTerminator.goes : SpentTerminator true t (some l.token) ⟨rest, t.last⟩ [(l, true)] := by
  refine ⟨rfl, by rw [ht]; rfl, rfl, fun {H} _ _ hends => ?_⟩
  obtain ⟨hfits, hclose⟩ := hends rfl
  obtain ⟨token, htoken, hsign⟩ := (Option.any_eq_true _ _).1 hclose
  refine ⟨⟨.inr hclose, hl, (Option.any_eq_true _ _).2 ⟨token, htoken,
    List.any_eq_true.2 ⟨_, by simp, hsign⟩⟩, hfits⟩, fun {t'} hsifts => ?_⟩
  have hword : (t'.nth 0).word = token.word := by
    rw [hsifts.word_front, List.singleton_append, Sifting.front?_gone, htoken]
    rfl
  rw [ht] at hsifts
  obtain ⟨hahead, hrest⟩ := hsifts.gone
  rw [← (List.cons.inj (congrArg Tokens.ahead hahead)).2] at hrest
  refine ⟨none, t', terminator_none ?_, hrest⟩
  rw [(leadless_isSign ";").eq hword, (leadless_isSign ";").none [closeBrace] rfl
    (List.any_eq_true.2 ⟨_, by simp, hsign⟩)]

end

theorem terminator_run {t u : Tokens} {terminator? : Option Token} (ht : t.Genuine)
    (hrun : terminator t = .ok (terminator?, u)) (ends : Bool) :
    (∀ t ∈ terminator?, ∃ lead, t = ⟨.punct, lead, ";"⟩) ∧
      ∃ G, SpentTerminator ends t terminator? u G := by
  cases hsemicolon : isSign (t.nth 0) ";" with
  | false =>
      obtain ⟨rfl, rfl⟩ := Prod.mk.inj (Except.ok.inj ((terminator_none hsemicolon).symm.trans hrun))
      exact ⟨nofun, [], .absent ends hsemicolon⟩
  | true =>
      obtain ⟨present, v, hpresent, hend⟩ := bind_run.1 hrun
      obtain ⟨rfl, rfl⟩ := pure_run.1 ((sees_run ";" 0 t).symm.trans hpresent)
      rw [hsemicolon] at hend
      obtain ⟨m, w, hm, hsome⟩ := bind_run.1 hend
      obtain ⟨rfl, rfl⟩ := pure_run.1 hsome
      have hm' := (take_passes ht hm (by decide)).2
      obtain ⟨l, rest, hvl, rfl, rfl, hl⟩ := takeIf_run.1 hm
      refine ⟨fun t ht => ?_, ?_⟩
      · cases ht
        exact ⟨_, hm'⟩
      · cases ends with
        | false => exact ⟨_, .stays hvl hl⟩
        | true => exact ⟨_, .goes hvl hl⟩

section
variable {ι : Type} {g : Grammar} (hg : Sound g)
include hg

/-! ### Enumerations -/

theorem follows_enumConstant : FollowsNode .strict (enumConstant g) fun _ : ι => enumConstant g :=
  (FollowsParts.cons (follows_modifiers hg) (.cons follows_takeIdentifier.tok (.cons
    (Follows.optional (blind_sees (by decide)) (follows_arguments hg).one) (.cons
      (Follows.optional (blind_sees (by decide))
        ((follows_classBody hg).one.weaken (L := .strict) rfl fun _ => id)) .nil)))).build ⟨rfl, rfl⟩

theorem follows_constants : Follows .braced (fun _ => false) [] (KeepsItems .comma) anything
    (separated .comma (test (isOneOf [";", closeBrace])) (enumConstant g))
    fun _ : ι => separated .comma (test (isOneOf [";", closeBrace])) (enumConstant g) :=
  Follows.separated blind_constantsEnd ((blind_sees (by decide)).mono rfl) (follows_enumConstant hg)
    rfl rfl

omit hg in
theorem enumConstants_eq : enumConstants g = (do
    let constants ← separated .comma (test (isOneOf [";", closeBrace])) (enumConstant g)
    let terminator? ← terminator
    return constantsNode constants terminator?) := by
  rw [enumConstants]
  congr 1
  funext constants
  rw [terminator, bind_assoc]
  congr 1
  funext ended
  cases ended with
  | false => rfl
  | true => simp [constantsNode]

/-- What the constants of an enumeration take. Their terminator goes where `ends` says that what stands
behind them goes up to the end of the body. -/
theorem enumConstants_run {t u : Tokens} {c : Node} (ht : t.Genuine)
    (hrun : enumConstants g t = .ok (c, u)) (ends : Bool) :
    c.kind = .java .enumConstants ∧ ∃ G, u.last = t.last ∧ t.ahead = G.map Prod.fst ++ u.ahead ∧
      G.words = kept (judge ends c) ∧ ∀ {H}, u.ahead.head? = H.head?.map Prod.fst → Fits true H →
        (ends = true → EndsBody H) → Fits false (G ++ H) ∧ ∀ {t'}, Sifts (G ++ H) t t' →
          ∃ c' u', enumConstants g t' = .ok (c', u') ∧ Sifts H u u' := by
  refine ⟨enumConstants_kind hrun, ?_⟩
  rw [enumConstants_eq] at hrun ⊢
  obtain ⟨constants, v, hconstants, hbehind⟩ := bind_run.1 hrun
  obtain ⟨terminator?, w, hterminator, hend⟩ := bind_run.1 hbehind
  obtain ⟨rfl, rfl⟩ := pure_run.1 hend
  obtain ⟨G, ws, ⟨pairs, hpaired, rfl, rfl⟩, hG, hq⟩ :=
    (follows_constants hg (ι := Unit)).run ht hconstants
  obtain ⟨hterminated, G', hG'⟩ := terminator_run (hG.genuine ht) hterminator ends
  refine ⟨G ++ G', hG'.last.trans hG.last, ?_, ?_, fun {H} hu hH hends => ?_⟩
  · rw [hG.ahead, hG'.ahead, List.map_append, List.append_assoc]
  · rw [Sifting.words_append, hG.words, hG'.words, kept_constants hpaired hterminated]
    rfl
  · obtain ⟨hbraced, hruns⟩ := hG'.runs hu hH hends
    rw [List.append_assoc]
    refine ⟨(hG.level_at hbraced).2, fun hsifts => ?_⟩
    obtain ⟨constants', v', hconstants', hsifts', -⟩ := hq () hbraced hsifts
    obtain ⟨terminator', u', hterminator', hend⟩ := hruns hsifts'
    exact ⟨_, u', bind_run.2 ⟨constants', v', hconstants', bind_run.2 ⟨terminator', u', hterminator',
      rfl⟩⟩, hend⟩

omit hg in
theorem keptMembers_of_none {items : List Node} {close : Token}
    (h : holdsMember (items.map .node ++ [.token close]) = false) : keptMembers items = [] := by
  rw [keptMembers, List.flatMap_eq_nil_iff]
  intro n hn
  simp only [holdsMember, List.any_eq_false] at h
  have hempty := h (.node n) (List.mem_append_left _ (List.mem_map_of_mem hn))
  simp [Element.node?, isEmpty] at hempty
  simp [hempty]

omit hg in
theorem keptNode_enumBody (opening close : Token) {c : Node} (hc : c.kind = .java .enumConstants)
    {items : List Node} (hitems : ∀ n ∈ items, n.kind ≠ .java .enumConstants) :
    keptNode (Node.hoisted (.java .enumBody)
        (.token opening :: .node c :: (items.map .node ++ [.token close]))) =
      opening.word :: (kept (judge (!holdsMember (items.map .node ++ [.token close])) c) ++
        (keptMembers items ++ [close.word])) := by
  rw [keptNode_hoisted, judgeIn_token rfl, judgeIn, kept_append, kept_append,
    judgeIn_members rfl fun _ => hitems, judgeChild]
  simp [isBodyKind, hc, kept, Layout.delimiterTokens, Tree.Kind.layout]

theorem follows_enumBody : FollowsNode .loose (enumBody g) fun _ : ι => enumBody g := by
  refine ⟨fun {t n u} ht hrun => ?_⟩
  obtain ⟨_, hes, rfl⟩ := build_run.1 hrun
  obtain ⟨opening, v, _, hopen, hbehind, rfl⟩ := parts_tok_run.1 hes
  obtain ⟨c, w, es, hc, hbody, rfl⟩ := parts_one_run.1 hbehind
  obtain ⟨l, rest, htl, rfl, rfl, hl⟩ := takeIf_run.1 hopen
  have hv : Tokens.Genuine ⟨rest, t.last⟩ := fun x hx => ht x (htl ▸ List.mem_cons_of_mem _ hx)
  -- Whether the terminator of the constants goes is read off the members behind it, so these come first.
  have hw : w.Genuine := by
    obtain ⟨-, G, -, hahead, -⟩ := enumConstants_run hg hv hc false
    exact fun x hx => hv x (hahead ▸ List.mem_append_right _ hx)
  obtain ⟨items, close, G', rfl, hitems, hG', hruns'⟩ :=
    closedBody_run hg (s := .member) rfl hw hbody
  obtain ⟨hkind, G, hlast, hahead, hwords, hruns⟩ :=
    enumConstants_run hg hv hc (!holdsMember (items.map .node ++ [.token close]))
  have hbehind : ∀ {H}, Fits true H → Fits false (G ++ (G' ++ H)) ∧
      ∀ {t'}, Sifts (G ++ (G' ++ H)) ⟨rest, t.last⟩ t' →
        ∃ c' u', enumConstants g t' = .ok (c', u') ∧ Sifts (G' ++ H) w u' := fun {H} hH => by
    refine hruns ?_ (hG'.enclosed hH).fits fun hnone =>
      hG'.needless (keptMembers_of_none (by simpa using hnone)) hH
    rw [hG'.ahead]
    cases G' with
    | nil => exact absurd hG'.words (by simp)
    | cons x G' => rfl
  refine ⟨(l, false) :: (G ++ G'), _, ⟨rfl, rfl⟩, ?_, fun i H t' hH hsifts => ?_⟩
  · refine ⟨hG'.last.trans hlast, ?_, ?_, .inl ?_, Sifting.starts_kept _ _,
      fun _ => List.cons_ne_nil _ _, fun hH => .inr ?_⟩
    · rw [htl, List.map_cons, List.map_append, List.cons_append, List.append_assoc, ← hG'.ahead]
      exact congrArg (l :: ·) hahead
    · have hkept := keptNode_enumBody l.token close hkind fun n hn => hitems n hn rfl
      rw [Sifting.words_kept, Sifting.words_append, hwords, hG'.words]
      exact hkept.symm
    · exact List.any_eq_true.2 ⟨openBrace, by simp, hl⟩
    · have hbound : isBound l.token = true := List.any_eq_true.2 ⟨openBrace, by simp, hl⟩
      rw [List.cons_append, Fits, hbound, List.append_assoc]
      exact fits_true (hbehind hH).1
  · rw [htl, List.cons_append, List.append_assoc] at hsifts
    obtain ⟨m, v', hm, hsifts', -⟩ := hsifts.takes_sign hl
    obtain ⟨c', w', hc', hsifts''⟩ := (hbehind hH).2 hsifts'
    obtain ⟨es', u', hes', hrest⟩ := hruns' hH hsifts''
    exact ⟨_, u', build_run.2 ⟨_, parts_tok_run.2 ⟨m, v', _, hm, parts_one_run.2 ⟨c', w', es', hc', hes',
      rfl⟩, rfl⟩, rfl⟩, hrest, trivial⟩

/-! ### Members -/

theorem follows_parameter : FollowsNode .strict (parameter g) fun _ : ι => parameter g :=
  (FollowsParts.cons (follows_modifiers hg) (.cons (follows_typeTree hg true).one (.cons
    (Follows.optional (blind_sees (by decide)) (follows_take "...").tok)
      (.cons follows_takeIdentifier.tok (.cons (Follows.many (blind_sees (by decide))
        (follows_dimension hg false).one) .nil))))).build ⟨rfl, rfl⟩

theorem follows_methodFrom {start : List Element} {starts : ι → List Element} {ws : List Word}
    (hstart : KeepsAll start ws) (hsame : ∀ i, sameEmpty start (starts i)) :
    Follows .loose (fun _ => true) ws KeepsNode anything (methodFrom g start)
      fun i => methodFrom g (starts i) := by
  have hdefault : FollowsAll .strict false (unsupported .annotationDefault)
      fun _ : ι => unsupported .annotationDefault := follows_fail
  exact (FollowsParts.cons
    (Follows.delimited (k := .parameters) ⟨rfl, nofun⟩ (follows_parameter hg)).one (.cons
    (Follows.optional (blind_sees (by decide))
      (follows_typeList hg (k := .throwsClause) ⟨rfl, nofun⟩ "throws").one) (.cons
        (Follows.optional (blind_sees (by decide)) hdefault) (.cons
          (Follows.cond (blind_kept (leadless_isSign openBrace)) (follows_block hg).one follows_end)
            .nil)))).extend ⟨rfl, rfl⟩ hstart hsame

theorem follows_memberFrom {mods : List Element} {mods' : ι → List Element} {ws : List Word}
    (hmods : KeepsAll mods ws) (hsame : ∀ i, sameEmpty mods (mods' i)) :
    Follows .loose (fun _ => true) ws KeepsNode anything (memberFrom g mods)
      fun i => memberFrom g (mods' i) := by
  have hcall : Blind .kept callAhead := (blind_identifierThen (by decide)).mono rfl
  refine Follows.bind ((FollowsParts.cons (Follows.optional (blind_sees (by decide))
    (follows_typeParameters hg).one) .nil).parts.append hmods hsame) (m := fun _ => true) ?_
    (.inr fun _ => rfl) fun _ _ _ => rfl
  intro start ws hstart
  refine Follows.cond hcall ?_ ?_
  · refine Follows.bind (follows_takeIdentifier.tok.behind ws) (m := fun _ => true) ?_
      (.inr fun _ => rfl) fun _ _ _ => rfl
    rintro name _ ⟨vs, hname, rfl⟩
    exact follows_methodFrom hg (keepsAll_append hstart hname) fun x => sameEmpty_append x.1.2.2 x.2.2
  · refine Follows.bind ((follows_typeTree hg true).one.behind ws) (m := fun _ => true) ?_
      (.inr fun _ => rfl) fun _ _ _ => rfl
    rintro type _ ⟨vs, htype, rfl⟩
    refine Follows.cond hcall ?_ ?_
    · refine Follows.bind (follows_takeIdentifier.tok.behind _) (m := fun _ => true) ?_
        (.inr fun _ => rfl) fun _ _ _ => rfl
      rintro name _ ⟨us, hname, rfl⟩
      exact follows_methodFrom hg (keepsAll_append (keepsAll_append hstart htype) hname)
        fun x => sameEmpty_append (sameEmpty_append x.1.1.2.2 x.1.2.2) x.2.2
    · exact (FollowsParts.cons (follows_declarators hg).one (.cons follows_end .nil)).extend ⟨rfl, rfl⟩
        (keepsAll_append hstart htype) fun x => sameEmpty_append x.1.2.2 x.2.2

theorem follows_classDeclaration {mods : List Element} {mods' : ι → List Element} {ws : List Word}
    (hmods : KeepsAll mods ws) (hsame : ∀ i, sameEmpty mods (mods' i)) :
    Follows .loose (fun _ => true) ws KeepsNode anything (classDeclaration g mods)
      fun i => classDeclaration g (mods' i) := by
  have hsees : ∀ text, Blind .kept (sees text) := fun text => blind_kept (leadless_isSign text)
  refine Follows.cond (hsees "@") follows_fail (Follows.cond (blind_kept fun _ => rfl) follows_fail ?_)
  exact Follows.asked (hsees "enum") fun isEnum => (FollowsParts.cons
    (follows_takeIf (leadless_isOneOf _)).tok (.cons follows_takeIdentifier.tok (.cons
      (Follows.optional (blind_sees (by decide)) (follows_typeParameters hg).one) (.cons
        (Follows.optional (blind_sees (by decide))
          (follows_typeList hg (k := .extendsClause) ⟨rfl, nofun⟩ "extends").one) (.cons
          (Follows.optional (blind_sees (by decide))
            (follows_typeList hg (k := .implementsClause) ⟨rfl, nofun⟩ "implements").one) (.cons
            (Follows.ite (follows_enumBody hg).one (follows_classBody hg).one) .nil)))))).extend ⟨rfl, rfl⟩ hmods hsame

theorem follows_typeMember : FollowsNode .loose (typeMember g) fun _ : ι => typeMember g := by
  have hsees : ∀ text, Blind .kept (sees text) := fun text => blind_kept (leadless_isSign text)
  refine Follows.cond (hsees ";") follows_empty (Follows.cond ?_ ?_ ?_)
  · refine (hsees openBrace).cond (blind_pure true) (Blind.mono (blind_guarded (inner_isSign (by decide))
      (fun _ => (leadless_isSign "static").none _ rfl)
      (blindInside_second (inner_isSign (by decide))) (blind_pure false)) rfl)
  · exact (FollowsParts.cons (Follows.optional (blind_sees (by decide)) (follows_take "static").tok)
      (.cons (follows_block hg).one .nil)).build ⟨rfl, rfl⟩
  · refine Follows.bind (follows_modifiers hg) (m := fun _ => true) (fun mods ws hmods => ?_)
      (.inr fun _ => rfl) fun _ _ _ => rfl
    exact Follows.cond (blind_kept (leadless_isOneOf _))
      (follows_classDeclaration hg hmods fun x => x.2.2) (follows_memberFrom hg hmods fun x => x.2.2)

theorem follows_topLevel : FollowsNode .loose (topLevel g) fun _ : ι => topLevel g := by
  refine Follows.cond (blind_kept (leadless_isSign ";")) follows_empty ?_
  exact Follows.bind (follows_modifiers hg) (m := fun _ => true) (fun mods ws hmods =>
    follows_classDeclaration hg hmods fun x => x.2.2) (.inr fun _ => rfl) fun _ _ _ => rfl

omit hg in
theorem follows_packageClause : FollowsNode .loose packageClause fun _ : ι => packageClause :=
  (FollowsParts.cons (follows_take "package").tok (.cons (follows_qualifiedName false).one
    (.cons follows_end .nil))).build ⟨rfl, rfl⟩

omit hg in
theorem follows_importClause : FollowsNode .loose importClause fun _ : ι => importClause :=
  (FollowsParts.cons (follows_take "import").tok (.cons
    (Follows.optional (blind_sees (by decide)) (follows_take "static").tok) (.cons
      (follows_qualifiedName true).one (.cons follows_end .nil)))).build ⟨rfl, rfl⟩

end

end Codemod.Recipes.Semicolons.Sifted
