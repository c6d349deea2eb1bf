import Codemod.Proofs.Java.Sifted.Lists
import Codemod.Proofs.Java.Sifted.Types

/-!
Bodies in a sifted text: the loops over their members, which go past the semicolons that go.
-/

namespace Codemod.Recipes.Semicolons.Sifted

open Codemod.Tree Codemod.Java Codemod.Java.Parser Codemod.Java.Grammar

/-- What may stand behind a construct: behind a statement and behind a member of a body, further ones. -/
def Level.behind : Symbol → Level
  | .statement | .member => .loose
  | _ => .strict

/-- The token does not go on with the statement in front of it. -/
def isApart (t : Token) : Bool :=
  !isClause t

/-- A node that is empty is a semicolon by itself. -/
def Stray (t : Tokens) (n : Node) (u : Tokens) : Prop :=
  n.kind = .java .empty → ∃ l, t = u.cons l ∧ isSign l.token ";" = true

/-- The constructs follow what is left of their tokens. -/
structure Sound (g : Grammar) : Prop extends GrowsAll g where
  follows : ∀ (s : Symbol) {ι : Type}, FollowsNode (.behind s) (g s) fun _ : ι => g s
  echoes : ∀ {s s'}, Dull s → Dull s' → Echoes s s' anything (g .type) (g .type)
  front : ∀ {s}, Level.behind s = .loose → Fronts isApart (g s)
  empty : ∀ {s}, Level.behind s = .loose → Ensures Stray (g s)

section
variable {ι : Type} {g : Grammar} (hg : Sound g)
include hg

theorem Sound.follows_type : FollowsNode .strict (g .type) fun _ : ι => g .type :=
  hg.follows .type

theorem Sound.follows_expression : FollowsNode .strict (g .expression) fun _ : ι => g .expression :=
  hg.follows .expression

end

/-! ### Members -/

/-- The words of the members of a body, of which the empty ones go. -/
def keptMembers (items : List Node) : List Word :=
  items.flatMap fun n => if n.kind == .java .empty then [] else keptNode n

/-- The loop over the members of a body. -/
abbrev members (p : Parser Node) : List Element → Parser (List Element × Bool) :=
  manyStep (do return !(← sees closeBrace)) (one p)

/-- In front stands a token that is left, which closes a body. -/
def ClosesBody (H : Sifting) : Prop :=
  ∃ l H', H = (l, false) :: H' ∧ isSign l.token closeBrace = true ∧ Fits true H'

/-- In front of members and what closes their body stands nothing that goes on with another member. -/
structure Enclosed (F : Sifting) : Prop where
  fits : Fits true F
  front : ((Sifting.front? F).any fun t => !isClause t) = true

/-- What a loop over members takes: those that go are needless. The loop also takes what is left. -/
structure SpentMembers (p : Parser Node) (t : Tokens) (items : List Node) (u : Tokens) (G : Sifting) :
    Prop where
  last : u.last = t.last
  ahead : t.ahead = G.map Prod.fst ++ u.ahead
  words : G.words = keptMembers items
  enclosed : ∀ {H}, ClosesBody H → Enclosed (G ++ H)
  runs : ∀ {H t' limit'} done', ClosesBody H → Sifts (G ++ H) t t' → t'.ahead.length < limit' →
    ∃ es' u', repeatWithin (members p) limit' done' t' = .ok (es', u') ∧ Sifts H u u'

theorem ClosesBody.enclosed {H : Sifting} (h : ClosesBody H) : Enclosed H := by
  obtain ⟨l, H', rfl, hclose, hfits⟩ := h
  have hbound : isBound l.token = true := List.any_eq_true.2 ⟨closeBrace, by simp, hclose⟩
  refine ⟨by rwa [Fits, hbound], ?_⟩
  rw [Sifting.front?_kept, Option.any_some, isClause_of_isClosing]
  · rfl
  · exact List.any_eq_true.2 ⟨closeBrace, by simp, hclose⟩

theorem Sifts.closes {H : Sifting} {t t' : Tokens} (h : Sifts H t t') (hH : ClosesBody H) :
    isSign (t'.nth 0) closeBrace = true := by
  obtain ⟨l, H', rfl, hclose, -⟩ := hH
  obtain ⟨l', ls, -, ht', hword, -, -⟩ := h.kept
  rw [ht']
  exact ((leadless_isSign closeBrace).eq hword).trans hclose

theorem not_sees_run {text : String} {t u : Tokens} {b : Bool} :
    (do return !(← sees text) : Parser Bool) t = .ok (b, u) ↔
      b = !isSign (t.nth 0) text ∧ u = t := by
  show (Except.ok (!isSign (t.nth 0) text, t) : Except ParseError _) = _ ↔ _
  simp [eq_comm]

theorem keptMembers_empty {n : Node} (h : n.kind = .java .empty) (items : List Node) :
    keptMembers (n :: items) = keptMembers items := by
  simp [keptMembers, h]

theorem keptMembers_cons {n : Node} (h : n.kind ≠ .java .empty) (items : List Node) :
    keptMembers (n :: items) = keptNode n ++ keptMembers items := by
  simp [keptMembers, h]

theorem layout_body {kind : Tree.Kind} (hbody : isBodyKind kind = true) : kind.layout = .sequence := by
  simp only [isBodyKind, Bool.or_eq_true, beq_iff_eq] at hbody
  rcases hbody with (rfl | rfl) | rfl <;> rfl

theorem judgeIn_token {kind : Tree.Kind} (hbody : isBodyKind kind = true) (t : Token)
    (es : List Element) :
    kept (judgeIn kind false (.token t :: es)) = t.word :: kept (judgeIn kind false es) := by
  have hterminator : ∀ t, isTerminator kind false t = false :=
    isTerminator_of_ne (by rintro rfl; cases hbody) fun _ => rfl
  rw [judgeIn, layout_body hbody, judgeChild, hterminator]
  simp [kept, Layout.delimiterTokens]

theorem judgeIn_members {kind : Tree.Kind} (hbody : isBodyKind kind = true) {items : List Node}
    (hitems : kind = .java .enumBody → ∀ n ∈ items, n.kind ≠ .java .enumConstants) (close : Token) :
    kept (judgeIn kind false (items.map .node ++ [.token close])) =
      keptMembers items ++ [close.word] := by
  induction items with
  | nil => exact judgeIn_token hbody close []
  | cons n items ih =>
      have hsame : ∀ ends, kept (judge (kind == .java .enumBody && ends) n) = keptNode n := by
        intro ends
        by_cases hkind : kind = .java .enumBody
        · exact congrArg kept (judge_ends (hitems hkind n List.mem_cons_self) _)
        · rw [beq_eq_false_iff_ne.2 hkind, Bool.false_and]
          rfl
      rw [List.map_cons, List.cons_append, judgeIn, kept_append, kept_append,
        ih fun hkind m hm => hitems hkind m (List.mem_cons_of_mem _ hm), layout_body hbody, judgeChild,
        hbody, Bool.true_and]
      by_cases hempty : n.kind = .java .empty
      · rw [keptMembers_empty hempty, if_pos (by simpa using hempty)]
        simp [kept, Layout.delimiterTokens]
      · rw [keptMembers_cons hempty, if_neg (by simpa using hempty), hsame]
        simp [kept, Layout.delimiterTokens]

theorem peeks_members : Peeks (do return !(← sees closeBrace)) :=
  peeks_not peeks_sees

section
variable {p : Parser Node} {n : Node} {items : List Node} {t v u : Tokens} {G : Sifting}

theorem spentMembers_nil (t : Tokens) : SpentMembers p t [] t [] where
  last := rfl
  ahead := rfl
  words := rfl
  enclosed hH := hH.enclosed
  runs {H t' limit'} done' hH hsifts hlimit := by
    obtain ⟨limit', rfl⟩ := Nat.exists_eq_succ_of_ne_zero (Nat.ne_zero_of_lt hlimit)
    refine ⟨done', t', many_stop peeks_members (not_sees_run.2 ⟨?_, rfl⟩) done' limit', hsifts⟩
    rw [hsifts.closes hH]
    rfl

theorem SpentMembers.gone (h : SpentMembers p v items u G) (hn : n.kind = .java .empty) {l : Lexed}
    (hl : isSign l.token ";" = true) : SpentMembers p (v.cons l) (n :: items) u ((l, true) :: G) where
  last := h.last
  ahead := congrArg (l :: ·) h.ahead
  words := h.words.trans (keptMembers_empty hn items).symm
  enclosed hH := ⟨⟨hl, (h.enclosed hH).front, (h.enclosed hH).fits⟩, (h.enclosed hH).front⟩
  runs done' hH hsifts := by
    obtain ⟨hv, hrest⟩ := hsifts.gone
    rw [← (List.cons.inj (congrArg Tokens.ahead hv)).2] at hrest
    exact h.runs done' hH hrest

theorem Spent.members {G' : Sifting} (h : Spent .loose true t (keptNode n) v G)
    (hruns : ∀ {H t'}, Fits true H → Sifts (G ++ H) t t' → ∃ n' v', p t' = .ok (n', v') ∧ Sifts H v v')
    (h' : SpentMembers p v items u G') (hn : n.kind ≠ .java .empty)
    (hfront : isClause (t.nth 0) = false) (hopen : isSign (t.nth 0) closeBrace = false) :
    SpentMembers p t (n :: items) u (G ++ G') where
  last := h'.last.trans h.last
  ahead := by rw [h.ahead, h'.ahead, List.map_append, List.append_assoc]
  words := by rw [Sifting.words_append, h.words, h'.words, keptMembers_cons hn]
  enclosed hH := by
    obtain ⟨l, G₁, rfl⟩ := h.starts.exists_cons (h.moved rfl)
    have hfront' : isClause l.token = false := by
      rwa [Tokens.nth, h.ahead] at hfront
    rw [List.append_assoc]
    exact ⟨h.loose (h'.enclosed hH).fits, by simp [hfront']⟩
  runs {H t' limit'} done' hH hsifts hlimit := by
    obtain ⟨limit', rfl⟩ := Nat.exists_eq_succ_of_ne_zero (Nat.ne_zero_of_lt hlimit)
    rw [List.append_assoc] at hsifts
    have hsame := (leadless_isSign closeBrace).eq (hsifts.front_kept
      (h.kept (h.moved rfl) (h'.enclosed hH).fits).1)
    obtain ⟨n', v', hn', hrest⟩ := hruns (h'.enclosed hH).fits hsifts
    have hshorter := h.shorter (h.moved rfl) hsifts hrest
    obtain ⟨es', u', hes', hend⟩ := h'.runs (done' ++ [.node n']) hH hrest
      (show v'.ahead.length < limit' by omega)
    refine ⟨es', u', many_more peeks_members (not_sees_run.2 ⟨?_, rfl⟩) (one_run.2 ⟨n', hn', rfl⟩) hes',
      hend⟩
    rw [hsame, hopen]
    rfl

end

/-- What members and the sign behind them take: those that go are needless. -/
structure SpentBody (t : Tokens) (items : List Node) (close : Token) (u : Tokens) (G : Sifting) :
    Prop where
  last : u.last = t.last
  ahead : t.ahead = G.map Prod.fst ++ u.ahead
  words : G.words = keptMembers items ++ [close.word]
  enclosed : ∀ {H}, Fits true H → Enclosed (G ++ H)
  /-- If all members go, they do so in front of what closes the body. -/
  needless : keptMembers items = [] → ∀ {H}, Fits true H →
    Fits false (G ++ H) ∧ ((Sifting.front? (G ++ H)).any fun t => isSign t closeBrace) = true

theorem needless_members {G H : Sifting} (hG : Sifting.words G = []) (hH : ClosesBody H)
    (h : Enclosed (G ++ H)) :
    Fits false (G ++ H) ∧ ((Sifting.front? (G ++ H)).any fun t => isSign t closeBrace) = true := by
  obtain ⟨l, H', rfl, hclose, hfits⟩ := hH
  induction G with
  | nil => exact ⟨h.fits, hclose⟩
  | cons x G ih =>
      obtain ⟨m, _ | _⟩ := x
      · cases hG
      · obtain ⟨hsign, hfront, hfits'⟩ := h.fits
        obtain ⟨hfits'', hclose'⟩ := ih hG ⟨hfits', hfront⟩
        obtain ⟨t, ht, hclosing⟩ := (Option.any_eq_true _ _).1 hclose'
        refine ⟨⟨hsign, (Option.any_eq_true _ _).2 ⟨t, ht, ?_⟩, hfits''⟩, hclose'⟩
        exact List.any_eq_true.2 ⟨closeBrace, by simp, hclosing⟩

theorem SpentMembers.body {p : Parser Node} {t v : Tokens} {items : List Node} {G : Sifting}
    (h : SpentMembers p t items v G)
    {l : Lexed} {rest : List Lexed} (hv : v = ⟨l :: rest, v.last⟩)
    (hl : isSign l.token closeBrace = true) :
    SpentBody t items l.token ⟨rest, v.last⟩ (G ++ [(l, false)]) where
  last := h.last
  ahead := by
    rw [h.ahead, hv]
    simp
  words := by rw [Sifting.words_append, h.words]; rfl
  enclosed {H} hH := by
    rw [List.append_assoc]
    exact h.enclosed ⟨l, H, rfl, hl, hH⟩
  needless hnone {H} hH := by
    have hcloses : ClosesBody ((l, false) :: H) := ⟨l, H, rfl, hl, hH⟩
    rw [List.append_assoc]
    exact needless_members (h.words.trans hnone) hcloses (h.enclosed hcloses)

section
variable {g : Grammar} (hg : Sound g) {s : Symbol} (hs : Level.behind s = .loose)
include hg hs

theorem members_run {limit : Nat} {done es : List Element} {t u : Tokens} (ht : t.Genuine)
    (hrun : repeatWithin (members (g s)) limit done t = .ok (es, u)) :
    ∃ items G, es = done ++ items.map .node ∧
      (∀ n ∈ items, s = .member → n.kind ≠ .java .enumConstants) ∧ SpentMembers (g s) t items u G := by
  induction limit generalizing done t with
  | zero => exact absurd hrun fail_run
  | succ limit ih =>
      obtain ⟨⟨done₁, more⟩, v, hround, h⟩ := bind_run.1 hrun
      obtain ⟨hmore, ⟨rfl, next, hnext, rfl⟩ | ⟨rfl, rfl, rfl⟩⟩ := (manyStep_run peeks_members).1 hround
      · obtain ⟨n, hn, rfl⟩ := one_run.1 hnext
        by_cases hempty : n.kind = .java .empty
        · obtain ⟨l, rfl, hl⟩ := hg.empty hs ht hn hempty
          obtain ⟨items, G, rfl, hitems, hG⟩ := ih (fun x hx => ht x (List.mem_cons_of_mem _ hx)) h
          exact ⟨n :: items, (l, true) :: G, by simp,
            List.forall_mem_cons.2 ⟨fun _ => by simp [hempty], hitems⟩, hG.gone hempty hl⟩
        · obtain ⟨G, ws, ⟨-, rfl⟩, hG, hq⟩ := (hs ▸ hg.follows s (ι := Unit)).run ht hn
          obtain ⟨items, G', rfl, hitems, hG'⟩ := ih (hG.genuine ht) h
          have hfront : isClause (t.nth 0) = false := by simpa [isApart] using hg.front hs hn
          have hopen : isSign (t.nth 0) closeBrace = false := by simpa using (not_sees_run.1 hmore).1
          refine ⟨n :: items, G ++ G', by simp, List.forall_mem_cons.2 ⟨fun hmember => ?_, hitems⟩,
            hG.members (fun hH hsifts => ?_) hG' hempty hfront hopen⟩
          · subst hmember
            exact hg.member hn
          · obtain ⟨n', v', hn', hrest, -⟩ := hq () hH hsifts
            exact ⟨n', v', hn', hrest⟩
      · cases h
        exact ⟨[], [], by simp, List.forall_mem_nil _, spentMembers_nil _⟩

/-- The members of a body and what closes it. -/
abbrev closedBody (p : Parser Node) : List (Parser (List Element)) :=
  [manyWhile (do return !(← sees closeBrace)) (one p), tok (take closeBrace)]

theorem closedBody_run {es : List Element} {t u : Tokens} (ht : t.Genuine)
    (h : parts (closedBody (g s)) t = .ok (es, u)) :
    ∃ items close G, es = items.map .node ++ [.token close] ∧
      (∀ n ∈ items, s = .member → n.kind ≠ .java .enumConstants) ∧
      SpentBody t items close u G ∧
      ∀ {H t'}, Fits true H → Sifts (G ++ H) t t' →
        ∃ es' u', parts (closedBody (g s)) t' = .ok (es', u') ∧ Sifts H u u' := by
  obtain ⟨es₁, v, _, hmembers, hclose, rfl⟩ := parts_cons_run.1 h
  obtain ⟨close, u', _, hclose, hnil, rfl⟩ := parts_tok_run.1 hclose
  obtain ⟨rfl, rfl⟩ := parts_nil_run.1 hnil
  obtain ⟨items, G, rfl, hitems, hG⟩ := members_run hg hs ht hmembers
  obtain ⟨l, rest, hv, rfl, rfl, hl⟩ := takeIf_run.1 hclose
  refine ⟨items, l.token, G ++ [(l, false)], rfl, hitems, hG.body hv hl, fun {H t'} hH hsifts => ?_⟩
  rw [List.append_assoc] at hsifts
  obtain ⟨es', v', hes', hsifts'⟩ := hG.runs [] ⟨l, H, rfl, hl, hH⟩ hsifts
    (Nat.lt_succ_self t'.ahead.length)
  rw [hv] at hsifts'
  obtain ⟨m, u', hm, hrest, -⟩ := hsifts'.takes_sign hl
  exact ⟨_, u', parts_cons_run.2 ⟨es', v', _, hes', parts_tok_run.2 ⟨m, u', _, hm,
    parts_nil_run.2 ⟨rfl, rfl⟩, rfl⟩, rfl⟩, hrest⟩

/-- A body without constants in front of its members. -/
theorem follows_body {ι : Type} {k : Java.Kind} (hk : k = .block ∨ k = .classBody) :
    FollowsNode .loose (build k (tok (take openBrace) :: closedBody (g s)))
      fun _ : ι => build k (tok (take openBrace) :: closedBody (g s)) := by
  refine ⟨fun {t n u} ht hrun => ?_⟩
  obtain ⟨_, hes, rfl⟩ := build_run.1 hrun
  obtain ⟨_, v, es, hopen, hbody, rfl⟩ := parts_tok_run.1 hes
  obtain ⟨l, rest, htl, rfl, rfl, hl⟩ := takeIf_run.1 hopen
  obtain ⟨items, close, G, rfl, -, hG, hruns⟩ := closedBody_run hg hs
    (fun x hx => ht x (htl ▸ List.mem_cons_of_mem _ hx)) hbody
  have hbody : isBodyKind (.java k) = true := by rcases hk with rfl | rfl <;> rfl
  have hwords : keptNode (Node.hoisted (.java k)
      (.token l.token :: (items.map .node ++ [.token close]))) = l.token.word :: G.words := by
    rw [keptNode_hoisted, judgeIn_token hbody, hG.words, judgeIn_members hbody fun h => ?_]
    rcases hk with rfl | rfl <;> cases h
  refine ⟨(l, false) :: G, _, ⟨rfl, rfl⟩, ?_, fun i H t' hH hsifts => ?_⟩
  · refine ⟨hG.last, ?_, hwords.symm, .inl ?_, Sifting.starts_kept _ _, fun _ => List.cons_ne_nil _ _,
      fun hH => .inr ?_⟩
    · rw [htl]
      exact congrArg (l :: ·) hG.ahead
    · exact List.any_eq_true.2 ⟨openBrace, by simp, hl⟩
    · have hbound : isBound l.token = true := List.any_eq_true.2 ⟨openBrace, by simp, hl⟩
      rw [List.cons_append, Fits, hbound]
      exact (hG.enclosed hH).fits
  · rw [htl] at hsifts
    obtain ⟨m, v', hm, hsifts', -⟩ := hsifts.takes_sign hl
    obtain ⟨es', u', hes', hrest⟩ := hruns hH hsifts'
    exact ⟨_, u', build_run.2 ⟨_, parts_tok_run.2 ⟨m, v', es', hm, hes', rfl⟩, rfl⟩, hrest, trivial⟩

end

end Codemod.Recipes.Semicolons.Sifted
