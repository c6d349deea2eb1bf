import Codemod.Proofs.Recipes.SettledSemicolons
import Codemod.Proofs.Recipes.ShedSemicolons

/-!
The comments that the recipe for needless semicolons leaves. A unit keeps all its comments in their
order where the trivia of each semicolon that goes can be taken over whole.
-/

namespace Codemod.Recipes.Semicolons

open Codemod.Tree Codemod.Java

/-! ### Nodes that keep their comments -/

/-- The node stands for the other one: semicolons are gone from it, and the comments in front of
them have moved. Constants lose their terminator only with the body around them. -/
structure Keeps (n n' : Node) : Prop where
  kind : n'.kind = n.kind
  lead : n'.lead = n.lead
  markers : n'.markers = n.markers
  sheds : Sheds n.lexemes n'.lexemes
  anchored : n'.Everywhere Node.Anchored
  empty : n.kind = .java .empty → n'.lexemes = [⟨.punct, n.lead, ";"⟩]
  constants : n.kind = .java .enumConstants →
    ConstantsForm n'.children ∧ sparesTerminator n' = sparesTerminator n

/-- The child is a token or stands for the other one. -/
inductive KeepsChild : Element → Element → Prop where
  | token (t : Token) : KeepsChild (.token t) (.token t)
  | node {n n' : Node} (h : Keeps n n') : KeepsChild (.node n) (.node n')

/-- What a node of a unit is, as long as no comment is lost in it. -/
structure Ready (n : Node) : Prop where
  formed : Formed n
  closed : Closed n
  anchored : n.Anchored
  spares : spares n = true

theorem Keeps.ends {n n' : Node} (h : Keeps n n') {p : Token → Bool}
    (hp : ∀ (t : Token) (lead : String), p { t with lead } = p t) (hn : EndsWith p n) :
    EndsWith p n' :=
  h.sheds.last hp hn

section
variable {es es' : List Element}

theorem any_node_keeps (h : List.Forall₂ KeepsChild es es') :
    (es'.any fun e => e.node?.isSome) = es.any fun e => e.node?.isSome := by
  induction h with
  | nil => rfl
  | cons h _ ih =>
      rw [List.any_cons, List.any_cons, ih]
      cases h <;> rfl

theorem sheds_children (layout : Layout) (h : List.Forall₂ KeepsChild es es') :
    Sheds (Node.lexemesIn layout es) (Node.lexemesIn layout es') := by
  induction h with
  | nil => exact .refl
  | @cons e e' es es' he hs ih =>
      have hmarkers : e'.node?.map Node.markers = e.node?.map Node.markers := by
        cases he with
        | token t => rfl
        | node hn => exact congrArg some hn.markers
      rw [Node.lexemesIn, Node.lexemesIn, delimiterTokens_congr layout hmarkers (any_node_keeps hs)]
      refine Sheds.append (Sheds.append_right ?_ _) ih
      cases he with
      | token t => exact .refl
      | node hn => exact hn.sheds

theorem anchored_keeps (h : List.Forall₂ KeepsChild es es') :
    ∀ c, Element.node c ∈ es' → c.Everywhere Node.Anchored := by
  induction h with
  | nil => exact nofun
  | cons he _ ih =>
      intro c hc
      rcases List.mem_cons.1 hc with rfl | hc
      · cases he with
        | node hn => exact hn.anchored
      · exact ih c hc

theorem sparesEmpty_keeps (h : List.Forall₂ KeepsChild es es') (carried : Carried) :
    sparesEmpty carried es' = sparesEmpty carried es := by
  induction h generalizing carried with
  | nil => rfl
  | @cons e e' es es' he _ ih =>
      have hempty : isEmpty e' = isEmpty e := by
        cases he with
        | token t => rfl
        | node hn => simp [isEmpty, Element.node?, hn.kind]
      have hlead : e'.lead = e.lead := by
        cases he with
        | token t => rfl
        | node hn => exact hn.lead
      rw [sparesEmpty, sparesEmpty, hempty, hlead, ih, ih]

theorem sparesResource_keeps (h : List.Forall₂ KeepsChild es es') :
    es'.all sparesResource = es.all sparesResource := by
  induction h with
  | nil => rfl
  | cons he _ ih =>
      rw [List.all_cons, List.all_cons, ih]
      cases he with
      | token t => rfl
      | node hn => simp [sparesResource, Element.node?, hn.markers]

theorem keeps_items {items : List Node} (h : List.Forall₂ KeepsChild (items.map .node) es') :
    ∃ items' : List Node, es' = items'.map .node ∧ List.Forall₂ Keeps items items' := by
  induction items generalizing es' with
  | nil =>
      cases h
      exact ⟨[], rfl, .nil⟩
  | cons n items ih =>
      cases h with
      | cons hn h =>
          cases hn with
          | @node _ n' hn =>
              obtain ⟨items', rfl, hitems⟩ := ih h
              exact ⟨n' :: items', rfl, .cons hn hitems⟩

theorem keeps_enclosed {items : List Node} {close : Token}
    (h : List.Forall₂ KeepsChild (enclosed items close) es') :
    ∃ items', es' = enclosed items' close ∧ List.Forall₂ Keeps items items' := by
  obtain ⟨front, behind, hfront, hbehind, rfl⟩ := forall₂_append h
  obtain ⟨items', rfl, hitems⟩ := keeps_items hfront
  cases hbehind with
  | cons hclose hnil =>
      cases hclose
      cases hnil
      exact ⟨items', rfl, hitems⟩

end

theorem forall_related {R : Node → Node → Prop} {items items' : List Node} {P Q : Node → Prop}
    (hPQ : ∀ {n n'}, R n n' → P n → Q n') (h : List.Forall₂ R items items')
    (hitems : ∀ n ∈ items, P n) : ∀ n ∈ items', Q n := by
  induction h with
  | nil => exact nofun
  | cons hn _ ih =>
      obtain ⟨hfirst, hitems⟩ := List.forall_mem_cons.1 hitems
      exact List.forall_mem_cons.2 ⟨hPQ hn hfirst, ih hitems⟩

section
variable {n : Node} {es' : List Element}

theorem keeps_constants (hn : Ready n) (h : List.Forall₂ KeepsChild n.children es')
    (hkind : n.kind = .java .enumConstants) :
    ConstantsForm es' ∧ sparesTerminator { n with children := es' } = sparesTerminator n := by
  rcases hn.formed _ hkind with hchildren | ⟨items, -, hchildren⟩
  · have hsame : es' = n.children := by
      rw [hchildren] at h ⊢
      cases h with
      | cons hfirst hnil =>
          cases hfirst
          cases hnil
          rfl
    rw [hsame]
    exact ⟨.inl hchildren, by cases n; rfl⟩
  have hends : ∀ c ∈ items, EndsWith isNoSlash c := fun c hc =>
    hn.closed _ hkind c (hchildren ▸ List.mem_map_of_mem hc)
  rw [hchildren] at h
  obtain ⟨items', rfl, hitems⟩ := keeps_items h
  refine ⟨.inr ⟨items', ?_, rfl⟩, ?_⟩
  · exact forall_related (fun hc => hc.ends isNoSlash_lead) hitems hends
  obtain rfl | ⟨front, last, rfl⟩ := List.eq_nil_or_concat items
  · cases hitems
    simp [sparesTerminator, withoutTerminator, hchildren]
  rw [List.concat_eq_append] at hitems hchildren
  obtain ⟨front', behind, -, hbehind, rfl⟩ := forall₂_append hitems
  cases hbehind with
  | @cons _ last' _ _ hlast hnil =>
      cases hnil
      rw [sparesTerminator_concat (n := n) _ _ (by rw [hchildren, List.map_append]; rfl),
        sparesTerminator_concat (front'.map .node) last' (by simp), hlast.markers]

theorem keeps_other (hn : Ready n) (h : List.Forall₂ KeepsChild n.children es') :
    Keeps n { n with children := es' } where
  kind := rfl
  lead := rfl
  markers := rfl
  sheds := by
    rw [lexemes_eq, lexemes_eq]
    exact (sheds_children _ h).leadTokens n.lead
  anchored := everywhere_iff.2
    ⟨fun hnil => hn.anchored ((sheds_children _ h).eq_nil.1 hnil), anchored_keeps h⟩
  empty hkind := by
    have hchildren : n.children = [.token ⟨.punct, "", ";"⟩] := hn.formed _ hkind
    rw [hchildren] at h
    cases h with
    | cons hfirst hnil =>
        cases hfirst
        cases hnil
        rw [lexemes_eq, hkind]
        simp [Node.lexemesIn, Element.lexemes, Layout.delimiterTokens, Tree.Kind.layout, leadTokens]
  constants := keeps_constants hn h

theorem isMember_keeps {m m' : Node} (h : Keeps m m') (hm : EndsWith endsClause m) :
    IsMember m' where
  ends := h.ends endsClause_lead hm
  empty hempty := by rw [h.empty (h.kind.symm.trans hempty), h.lead]

end

/-! ### Steps -/

section
variable {n v : Node} (h : Keeps n v)
include h

theorem Keeps.step {es : List Element}
    (hsheds : Sheds (Node.lexemesIn v.kind.layout v.children) (Node.lexemesIn v.kind.layout es))
    (hchildren : ∀ c, Element.node c ∈ es → c.Everywhere Node.Anchored)
    (hempty : v.kind ≠ .java .empty) (hconstants : v.kind ≠ .java .enumConstants) :
    Keeps n { v with children := es } where
  kind := h.kind
  lead := h.lead
  markers := h.markers
  sheds := by
    refine h.sheds.trans ?_
    rw [lexemes_eq, lexemes_eq]
    exact hsheds.leadTokens v.lead
  anchored :=
    everywhere_iff.2 ⟨fun hnil => (everywhere_iff.1 h.anchored).1 (hsheds.eq_nil.1 hnil), hchildren⟩
  empty hkind := absurd (h.kind.trans hkind) hempty
  constants hkind := absurd (h.kind.trans hkind) hconstants

section
variable {opening close : Token} {items : List Node} (hmembers : ∀ m ∈ items, IsMember m)
  (hclose : closes close = true) (hspares : sparesEmpty {} v.children = true)
include hmembers hclose hspares

theorem Keeps.body (hkind : v.kind = .java .block ∨ v.kind = .java .classBody)
    (hchildren : v.children = .token opening :: enclosed items close)
    (hopening : isTight opening = true) : Keeps n ((withoutEmpty v).getD v) := by
  have hbelow := (everywhere_iff.1 h.anchored).2
  rw [hchildren] at hspares hbelow
  have hlayout : v.kind.layout = .sequence := by
    rcases hkind with hkind | hkind <;> rw [hkind] <;> rfl
  rw [withoutEmpty_getD, hchildren, dropEmpty_cons _ rfl]
  refine h.step ?_ (fun c hc => ?_) ?_ ?_
  · rw [hlayout, hchildren, lexemesIn_token_cons, lexemesIn_token_cons]
    exact sheds_enclosed hmembers hclose hspares hopening
  · refine anchored_dropEmpty (fun d hd => ⟨hbelow d (List.mem_cons_of_mem _ hd), ?_⟩) c
      (by simpa using hc)
    exact EndsWith.ne_nil (hmembers d (by simpa using hd)).ends
  · rcases hkind with hkind | hkind <;> simp [hkind]
  · rcases hkind with hkind | hkind <;> simp [hkind]

theorem Keeps.members {constants : Node} (hkind : v.kind = .java .enumBody)
    (hconstants : constants.kind = .java .enumConstants)
    (hchildren : v.children = .token opening :: .node constants :: enclosed items close)
    (hstray : ∀ m ∈ items.head?, m.kind = .java .empty → EndsWith endsClause constants) :
    Keeps n ((withoutEmpty v).getD v) ∧ ((withoutEmpty v).getD v).children =
      .token opening :: .node constants :: dropEmpty {} (enclosed items close) := by
  have hbelow := (everywhere_iff.1 h.anchored).2
  have hno : isEmpty (.node constants) = false := by simp [isEmpty, Element.node?, hconstants]
  rw [hchildren, sparesEmpty_cons _ rfl, sparesEmpty_cons _ hno] at hspares
  rw [hchildren] at hbelow
  rw [withoutEmpty_getD, hchildren, dropEmpty_cons _ rfl, dropEmpty_cons _ hno]
  refine ⟨h.step ?_ (fun c hc => ?_) (by simp [hkind]) (by simp [hkind]), rfl⟩
  · rw [hkind, hchildren]
    show Sheds (Node.lexemesIn .sequence _) (Node.lexemesIn .sequence _)
    rw [lexemesIn_token_cons, lexemesIn_token_cons, lexemesIn_node, lexemesIn_node,
      ← List.cons_append, ← List.cons_append]
    refine sheds_members hmembers hclose hspares fun m hm hempty => ?_
    obtain ⟨front, t, hlexemes, ht⟩ := hstray m hm hempty
    exact ⟨opening :: front, t, by rw [hlexemes]; rfl, by simp [isTight, ht]⟩
  · rcases List.mem_cons.1 hc with hc | hc
    · cases hc
    · rcases List.mem_cons.1 hc with hc | hc
      · exact hbelow c (by simp [hc])
      · refine anchored_dropEmpty (fun d hd => ⟨hbelow d (by simp at hd; simp [hd]), ?_⟩) c hc
        exact EndsWith.ne_nil (hmembers d (by simpa using hd)).ends

end

theorem Keeps.terminator {opening : Token} {constants : Node} {rest : List Element}
    (hkind : v.kind = .java .enumBody) (hconstants : constants.kind = .java .enumConstants)
    (hchildren : v.children = .token opening :: .node constants :: rest)
    (hform : ConstantsForm constants.children) (hopening : isNoSlash opening = true)
    (hrest : (rest.any fun e => e.node?.isSome) = false →
      sparesTerminator constants = true ∧ ∃ close, closes close = true ∧ rest = [.token close]) :
    Keeps n ((withoutConstantsTerminator v).getD v) := by
  have hbelow := (everywhere_iff.1 h.anchored).2
  rw [withoutConstantsTerminator_eq hconstants hchildren]
  cases hany : rest.any fun e => e.node?.isSome with
  | true => exact h
  | false =>
  obtain ⟨hspares, close, hclose, rfl⟩ := hrest hany
  cases hstep : withoutTerminator constants with
  | none => exact h
  | some step =>
  obtain ⟨trimmed, removed⟩ := step
  rw [sparesTerminator, hstep] at hspares
  obtain ⟨hlexemes, hplain, hanchored⟩ := lexemes_withoutTerminator hconstants hform
    (hbelow constants (by rw [hchildren]; simp)) hstep
  have hplain' : EndsPlain (opening :: trimmed.lexemes) := by
    rcases hplain with hnil | hplain
    · exact ⟨[], opening, by rw [hnil]; rfl, hopening⟩
    · exact hplain.cons opening
  have hset : (v.withChild 1 (.node trimmed)).children =
      [.token opening, .node trimmed, .token close] := by
    show v.children.set 1 _ = _
    rw [hchildren]
    rfl
  simp only [Bool.false_eq_true, if_false, Option.map_some, Option.getD_some]
  rw [children_carryAfter close removed (by rw [hset]; rfl), Node.withChild, hset]
  refine h.step ?_ (fun c hc => ?_) (by simp [hkind]) (by simp [hkind])
  · have hsheds := sheds_terminator hplain' hspares hclose
    rw [hkind, hchildren]
    show Sheds (Node.lexemesIn .sequence _) (Node.lexemesIn .sequence
      [.token opening, .node trimmed, .token _])
    rw [lexemesIn_token_cons, lexemesIn_token_cons, lexemesIn_node, lexemesIn_node, lexemesIn_close,
      lexemesIn_close, hlexemes]
    exact hsheds
  · obtain rfl : c = trimmed := by simpa using hc
    exact hanchored

theorem Keeps.resources {opening close : Token} {items : List Node}
    (hkind : v.kind = .java .tryResources)
    (hchildren : v.children = .token opening :: enclosed items close)
    (hitems : ∀ m ∈ items, m.kind = .java .resource ∧ EndsWith isNoSlash m)
    (hclose : closes close = true) (hspares : v.children.all sparesResource = true) :
    Keeps n ((withoutResourceTerminator v).getD v) := by
  have hbelow := (everywhere_iff.1 h.anchored).2
  have hlayout : v.kind.layout = .separated .semicolon none := by rw [hkind]; rfl
  obtain rfl | ⟨front, last, rfl⟩ := List.eq_nil_or_concat items
  · have hnone : withoutResourceTerminator v = none := by
      simp only [withoutResourceTerminator, hchildren]
      rfl
    rw [hnone]
    exact h
  rw [List.concat_eq_append] at hitems hchildren
  obtain ⟨hresource, hends⟩ := hitems last (by simp)
  obtain ⟨es, hes⟩ : ∃ es, es = .token opening :: front.map Element.node := ⟨_, rfl⟩
  have hsplit : v.children = es ++ [.node last, .token close] := by
    rw [hchildren, hes]
    simp [enclosed]
  rw [withoutResourceTerminator_eq hsplit hresource]
  cases hmarker : last.markers.get? .semicolon with
  | none => exact h
  | some terminator =>
  rw [hsplit] at hspares hbelow
  have hkeeps : Carried.keeps {} terminator.before = true := by
    have hlast := List.all_eq_true.1 hspares (.node last) (by simp)
    simpa [sparesResource, Element.node?, hmarker] using hlast
  have hset : (v.withChild es.length (.node (unmarked last .semicolon))).children =
      es ++ [.node (unmarked last .semicolon), .token close] := by
    show v.children.set es.length _ = _
    rw [hsplit, List.set_append_right _ _ (Nat.le_refl _), Nat.sub_self]
    rfl
  obtain ⟨ts, hts, hmarked, hunmarked⟩ :=
    lexemesIn_unmarked es hends (tokensBehind_resources hmarker)
  rw [Option.map_some, Option.getD_some,
    children_carryAfter close terminator.before (by rw [hset]; simp), Node.withChild,
    hset, List.set_append_right _ _ (Nat.le_succ _), Nat.succ_sub (Nat.le_refl _), Nat.sub_self]
  refine h.step ?_ (fun c hc => ?_) (by simp [hkind]) (by simp [hkind])
  · have hconcat : ∀ (e : Element) (t : Token),
        Node.lexemesIn (.separated .semicolon none) (es ++ [e, .token t]) =
          Node.lexemesIn (.separated .semicolon none) (es ++ [e]) ++ [t] := by
      intro e t
      have happend := lexemesIn_append_tokens (.separated .semicolon none) (es ++ [e]) [t]
      rwa [List.append_assoc] at happend
    rw [hlayout, hsplit]
    show Sheds _ (Node.lexemesIn _ (es ++ [.node (unmarked last .semicolon), .token _]))
    rw [hconcat, hconcat, hmarked, hunmarked]
    exact sheds_terminator hts hkeeps hclose
  · rcases List.mem_append.1 hc with hc | hc
    · exact hbelow c (List.mem_append_left _ hc)
    · obtain rfl : c = unmarked last .semicolon := by simpa using hc
      exact anchored_unmarked (hbelow last (by simp)) _

end

/-! ### The walk -/

section
variable {n : Node} {es' : List Element} (hn : Ready n) (h : List.Forall₂ KeepsChild n.children es')
include hn h

theorem keeps_body (hkind : n.kind = .java .block ∨ n.kind = .java .classBody) :
    Keeps n ((withoutEmpty { n with children := es' }).getD { n with children := es' }) := by
  have hother := keeps_other hn h
  obtain ⟨items, henclosed⟩ : ∃ items : List Node,
      Enclosed "\x7b" "\x7d" n.children (items.map .node) := by
    rcases hkind with hkind | hkind <;> exact hn.formed _ hkind
  have hends : ∀ c, Element.node c ∈ n.children → EndsWith endsClause c := by
    rcases hkind with hkind | hkind <;> exact hn.closed _ hkind
  have hspares : sparesEmpty {} n.children = true := by
    have hspares := hn.spares
    rw [spares] at hspares
    rcases hkind with hkind | hkind <;> rwa [hkind] at hspares
  rw [← sparesEmpty_keeps h] at hspares
  obtain ⟨close, hclose, hchildren⟩ := enclosed_items henclosed
  rw [hchildren] at hends h
  cases h with
  | cons hopening hrest =>
  cases hopening
  obtain ⟨items', rfl, hitems⟩ := keeps_enclosed hrest
  have hmembers : ∀ m ∈ items', IsMember m :=
    forall_related (P := EndsWith endsClause) isMember_keeps hitems fun m hm =>
      hends m (by simp [hm])
  exact hother.body hmembers (by simp [closes, hclose]) hspares hkind rfl rfl

theorem keeps_enumBody (hkind : n.kind = .java .enumBody) :
    Keeps n ((trimEnumBody { n with children := es' }).getD { n with children := es' }) := by
  have hother := keeps_other hn h
  obtain ⟨constants, items, hconstants, hothers, henclosed⟩ := hn.formed _ hkind
  obtain ⟨hends, hstray⟩ := hn.closed _ hkind
  have hspares := hn.spares
  rw [spares, hkind] at hspares
  simp only [Bool.and_eq_true] at hspares
  obtain ⟨hempty, hterminator⟩ := hspares
  rw [← sparesEmpty_keeps h] at hempty
  obtain ⟨close, hclose, hchildren⟩ := enclosed_items henclosed
  have hcloses : closes close = true := by simp [closes, hclose]
  rw [List.map_cons, List.cons_append] at hchildren
  rw [hchildren] at hends hterminator h
  cases h with
  | cons hopening h =>
  cases hopening
  cases h with
  | cons hfirst hrest =>
  cases hfirst with
  | @node _ constants' hfirst =>
  obtain ⟨items', rfl, hitems⟩ := keeps_enclosed hrest
  have hkind' : constants'.kind = .java .enumConstants := hfirst.kind.trans hconstants
  obtain ⟨hform, hsame⟩ := hfirst.constants hconstants
  have hmembers : ∀ m ∈ items', IsMember m :=
    forall_related (P := EndsWith endsClause) isMember_keeps hitems fun m hm =>
      hends m (by simp [hm]) (hothers m hm)
  obtain ⟨hcleared, hw⟩ := hother.members hmembers hcloses hempty hkind hkind' rfl
    fun m hm hm' => by
      cases hitems with
      | nil => cases hm
      | cons hitem _ =>
          cases hm
          exact hfirst.ends endsClause_lead
            (hstray _ _ _ _ hchildren (hitem.kind.symm.trans hm'))
  rw [trimEnumBody_getD]
  refine hcleared.terminator (hcleared.kind.trans hkind) hkind' hw hform rfl fun hnone => ?_
  obtain ⟨hall, lead, hdrop⟩ := dropEmpty_enclosed hnone
  have hempties : ∀ m ∈ items, m.kind = .java .empty :=
    forall_related (fun hm hkind => hm.kind.symm.trans hkind) hitems.flip hall
  refine ⟨?_, _, by simp [closes, hclose], hdrop⟩
  rw [continues_of_empties hconstants hempties, Bool.false_or, List.all_cons,
    List.all_cons] at hterminator
  simp only [Element.node?, Option.all_some, Bool.and_eq_true] at hterminator
  rw [hsame]
  simpa [hconstants] using hterminator.2.1

theorem keeps_resources (hkind : n.kind = .java .tryResources) :
    Keeps n ((withoutResourceTerminator { n with children := es' }).getD
      { n with children := es' }) := by
  have hother := keeps_other hn h
  obtain ⟨items, hresources, henclosed⟩ := hn.formed _ hkind
  have hends := hn.closed _ hkind
  have hspares := hn.spares
  rw [spares, hkind] at hspares
  rw [← sparesResource_keeps h] at hspares
  obtain ⟨close, hclose, hchildren⟩ := enclosed_items henclosed
  rw [hchildren] at hends h
  cases h with
  | cons hopening hrest =>
  cases hopening
  obtain ⟨items', rfl, hitems⟩ := keeps_enclosed hrest
  refine hother.resources hkind rfl ?_ (by simp [closes, hclose]) hspares
  exact forall_related (P := fun m => m.kind = .java .resource ∧ EndsWith isNoSlash m)
    (fun hm hm' => ⟨hm.kind.trans hm'.1, hm.ends isNoSlash_lead hm'.2⟩) hitems
    fun m hm => ⟨hresources m hm, hends m (by simp [hm])⟩

theorem keeps_leave (cursor : Cursor) :
    Keeps n ((visitor.leave { n with children := es' } cursor ()).1.getD
      { n with children := es' }) := by
  obtain ⟨kind, hkind⟩ | ⟨kind, hkind⟩ :
      (∃ kind, n.kind = .yaml kind) ∨ ∃ kind, n.kind = .java kind := by
    cases n.kind <;> simp
  · rw [leave_yaml (v := { n with children := es' }) hkind]
    exact keeps_other hn h
  · rw [leave_java (v := { n with children := es' }) hkind]
    cases kind with
    | block => exact keeps_body hn h (.inl hkind)
    | classBody => exact keeps_body hn h (.inr hkind)
    | enumBody => exact keeps_enumBody hn h hkind
    | tryResources => exact keeps_resources hn h hkind
    | _ => exact keeps_other hn h

end

/-- What stands in place of a node keeps the comments of the node. -/
def Keeping : VisitRelation Unit :=
  fun n _ n' _ _ => n.Everywhere Ready → Keeps n n'

theorem keeps_of_swept {es es' : List Element} {s s' : Unit} {changed : Bool}
    (h : Swept Keeping es s es' changed s')
    (hes : ∀ c, Element.node c ∈ es → c.Everywhere Ready) : List.Forall₂ KeepsChild es es' := by
  induction h with
  | nil => exact .nil
  | token _ ih => exact .cons (.token _) (ih fun c hc => hes c (List.mem_cons_of_mem _ hc))
  | node hn _ ih =>
      exact .cons (.node (hn (hes _ List.mem_cons_self)))
        (ih fun c hc => hes c (List.mem_cons_of_mem _ hc))

theorem leaves_keeping : visitor.Leaves Keeping := by
  intro n cursor s s' es' changed hswept v left hready
  obtain ⟨hn, hchildren⟩ := everywhere_iff.1 hready
  exact keeps_leave hn (keeps_of_swept hswept hchildren) cursor

/-! ### Units -/

theorem keeps_trimmed {source : String} {unit : Node} (h : parseUnit source = .ok unit)
    (hspares : unit.Everywhere fun n => spares n = true) : Keeps unit (trimmed unit) := by
  obtain ⟨hunit, hanchored, _⟩ := unit_of_parseUnit h
  have hready : unit.Everywhere Ready := fun m hm =>
    ⟨formed_of_parseUnit h m hm, closed_of_parseUnit h m hm, hanchored m hm, hspares m hm⟩
  have haccepts : visitor.accepts unit = true := by
    simp [visitor, Hooks.visitor, hunit.kind]
  exact Visitor.walk_sweeps (fun _ _ _ => rfl) leaves_keeping haccepts () hready

theorem exists_tokens_trimmed {source : String} {unit : Node} (h : parseUnit source = .ok unit)
    (hspares : unit.Everywhere fun n => spares n = true) :
    ∃ tokens, tokenize (trimmed unit).print = .ok tokens ∧
      tokens.toList.map Lexed.token = (trimmed unit).lexemes := by
  obtain ⟨_, _, tokens, htokens, hlexemes⟩ := unit_of_parseUnit h
  have hkeeps := keeps_trimmed h hspares
  have hscans := Scan.scans_tokensWithin htokens
  rw [← hlexemes] at hscans
  obtain ⟨tokens', htokens', hlexemes'⟩ := tokenize_printTokens.2 (hkeeps.sheds.scans hscans).1
  rw [printTokens_lexemes hkeeps.anchored] at htokens'
  exact ⟨tokens', htokens', hlexemes'⟩

/-- The recipe keeps all comments of a unit, in their order, where the trivia of each semicolon that
goes is taken over whole: the text that it leaves has tokens, with the comments of the source
between them. -/
theorem trimmed_comments {source : String} {unit : Node} (h : parseUnit source = .ok unit)
    (hspares : unit.Everywhere fun n => spares n = true) :
    ∃ tokens tokens', tokenize source = .ok tokens ∧
      tokenize (trimmed unit).print = .ok tokens' ∧ tokens'.comments = tokens.comments := by
  obtain ⟨_, _, tokens, htokens, hlexemes⟩ := unit_of_parseUnit h
  obtain ⟨tokens', htokens', hlexemes'⟩ := exists_tokens_trimmed h hspares
  have hscans := Scan.scans_tokensWithin htokens
  rw [← hlexemes] at hscans
  obtain ⟨-, hcomments⟩ := (keeps_trimmed h hspares).sheds.scans hscans
  refine ⟨tokens, tokens', htokens, htokens', ?_⟩
  have hof : ∀ tokens : Tokens, tokens.comments = commentsOf (tokens.toList.map Lexed.token) := by
    intro tokens
    rw [Tokens.comments, commentsOf, List.flatMap_map]
  rw [hof, hof, hlexemes', hcomments, hlexemes]

/-- Comments of an empty member, of the terminators of resources and of constants, and of an empty
statement move on. -/
theorem trimmed_comments_members :
    let source := "class A \x7b\n  // a\n  ;\n\n  /* b */\n  int i;\n  void f() \x7b\n"
      ++ "    try (r; s /* c */ ;) \x7b /* d */ ; \x7d\n  \x7d\n\x7d\n"
      ++ "enum E \x7b X, Y /* e */ ; // f\n  ; \x7d\n"
    ∃ unit tokens tokens', parseUnit source = .ok unit ∧ tokenize source = .ok tokens ∧
      tokenize (trimmed unit).print = .ok tokens' ∧ tokens'.comments = tokens.comments ∧
        (trimmed unit).print =
          "class A \x7b\n  // a\n\n  /* b */\n  int i;\n  void f() \x7b\n"
            ++ "    try (r; s /* c */) \x7b /* d */ \x7d\n  \x7d\n\x7d\n"
            ++ "enum E \x7b X, Y /* e */ // f\n  \x7d\n" := by
  intro source
  have hunit : (parseUnit source).toOption.map (fun unit =>
      ((trimmed unit).print, unit.preorder.all spares)) =
        some ("class A \x7b\n  // a\n\n  /* b */\n  int i;\n  void f() \x7b\n"
          ++ "    try (r; s /* c */) \x7b /* d */ \x7d\n  \x7d\n\x7d\n"
          ++ "enum E \x7b X, Y /* e */ // f\n  \x7d\n", true) := by
    decide +kernel
  cases hparse : parseUnit source with
  | error e =>
      rw [hparse] at hunit
      cases hunit
  | ok unit =>
      rw [hparse] at hunit
      obtain ⟨hprint, hspares⟩ := Prod.mk.inj (Option.some.inj hunit)
      obtain ⟨tokens, tokens', htokens, htokens', hcomments⟩ :=
        trimmed_comments hparse (List.all_eq_true.1 hspares)
      exact ⟨unit, tokens, tokens', rfl, htokens, htokens', hcomments, hprint⟩

/-- A comment that stands between the last line feed and the semicolon goes with the semicolon. -/
example :
    (parseUnit "class A \x7b\n  /* c */ ;\n\x7d\n").toOption.map (fun unit =>
      (unit.preorder.all spares, (trimmed unit).print)) =
        some (false, "class A \x7b\n\x7d\n") := by
  decide +kernel

end Codemod.Recipes.Semicolons
