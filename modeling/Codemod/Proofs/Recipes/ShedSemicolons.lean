import Codemod.Proofs.Java.Shedding
import Codemod.Proofs.Recipes.CarriedComments
import Codemod.Proofs.Recipes.Semicolons

/-!
The semicolons that the recipe takes away from the children of one node, in tokens: empty members,
the terminator of constants and that of the last resource. Where the trivia in front of each can be
taken over whole, its comments reach the token behind.
-/

namespace Codemod.Recipes.Semicolons

open Codemod.Tree Codemod.Java

/-! ### Trivia that is taken over whole -/

/-- No comment is lost where the empty children go. -/
def sparesEmpty (carried : Carried) : List Element → Bool
  | [] => true
  | child :: rest =>
      if isEmpty child then
        carried.keeps child.lead && sparesEmpty (carried.take child.lead) rest
      else sparesEmpty (if carried.text.isEmpty then carried else {}) rest

/-- No comment is lost where the constants lose their terminator. -/
def sparesTerminator (constants : Node) : Bool :=
  (withoutTerminator constants).all fun trimmed => Carried.keeps {} trimmed.2

/-- A member that is more than a semicolon follows the constants. -/
def continues (e : Element) : Bool :=
  e.node?.any fun n => n.kind != .java .enumConstants && n.kind != .java .empty

/-- No comment is lost where the last resource loses its terminator. -/
def sparesResource (e : Element) : Bool :=
  e.node?.all fun n => (n.markers.get? .semicolon).all fun m => Carried.keeps {} m.before

/-- No comment is lost where semicolons go among the children of the node. -/
def spares (n : Node) : Bool :=
  match n.kind with
  | .java .block | .java .classBody => sparesEmpty {} n.children
  | .java .enumBody =>
      sparesEmpty {} n.children && (n.children.any continues ||
        n.children.all fun e => e.node?.all fun c =>
          c.kind != .java .enumConstants || sparesTerminator c)
  | .java .tryResources => n.children.all sparesResource
  | _ => true

/-! ### Empty members -/

/-- A member of a body ends with a semicolon or a brace, and one that is empty is a semicolon. -/
structure IsMember (n : Node) : Prop where
  ends : EndsWith endsClause n
  empty : n.kind = .java .empty → n.lexemes = [⟨.punct, n.lead, ";"⟩]

theorem isEmpty_node {n : Node} : isEmpty (.node n) = true ↔ n.kind = .java .empty := by
  simp [isEmpty, Element.node?]

theorem commented_concat (drops : List Token) {t : Token} {ks : List (List Char)}
    (h : Commented (drops ++ [t]) ks) :
    ∃ front behind, ks = front ++ behind ∧ Commented drops front ∧ Trivia t.lead.toList behind := by
  induction drops generalizing ks with
  | nil =>
      cases h with
      | @cons _ _ ks ls h hs =>
          cases hs
          exact ⟨[], ks, by simp, .nil, h⟩
  | cons d drops ih =>
      cases h with
      | @cons _ _ ks ls h hs =>
          obtain ⟨front, behind, rfl, hfront, hbehind⟩ := ih hs
          exact ⟨ks ++ front, behind, by simp, .cons h hfront, hbehind⟩

/-- The trivia of a token with what waits in front of it. -/
def Carried.upon (carried : Carried) (lead : String) : String :=
  if carried.text.isEmpty then lead else carried.onto lead

theorem Carried.Holds.upon {carried : Carried} {ks ls : List (List Char)} (h : carried.Holds ks)
    {lead : String} {rest : List Char} (hlead : Trivia (lead.toList ++ rest) ls) :
    Trivia ((carried.upon lead).toList ++ rest) (ks ++ ls) := by
  rw [Carried.upon]
  split_ifs with hempty
  · rw [h.eq_nil (List.isEmpty_iff.1 hempty)]
    exact hlead
  · exact h.onto hlead

theorem dropEmpty_node {carried : Carried} {n : Node} (h : n.kind ≠ .java .empty)
    (rest : List Element) :
    dropEmpty carried (.node n :: rest) = .node { n with lead := carried.upon n.lead } ::
      dropEmpty (if carried.text.isEmpty then carried else {}) rest := by
  have hno : isEmpty (.node n) = false := by simpa [isEmpty, Element.node?] using h
  rw [dropEmpty, hno, Carried.upon]
  simp only [Bool.false_eq_true, if_false]
  split_ifs
  · cases n
    rfl
  · rfl

theorem dropEmpty_close (carried : Carried) (close : Token) :
    dropEmpty carried [.token close] =
      [.token { close with lead := carried.upon close.lead }] := by
  rw [dropEmpty, show isEmpty (.token close) = false from rfl, Carried.upon]
  simp only [Bool.false_eq_true, if_false]
  split_ifs <;> rfl

theorem lexemesIn_node (n : Node) (es : List Element) :
    Node.lexemesIn .sequence (.node n :: es) = n.lexemes ++ Node.lexemesIn .sequence es := by
  simp [Node.lexemesIn, Element.lexemes, Layout.delimiterTokens]

section
variable {carried : Carried} {drops : List Token}
  (hdrops : ∀ d ∈ drops, d.text = ";") (hcarried : ∀ ks, Commented drops ks → carried.Holds ks)
include hdrops hcarried

theorem sheds_member {n : Node} (hn : EndsWith endsClause n) {before : Token}
    (hbefore : isTight before = true) {behind : List Token} (hbehind : behind ≠ []) :
    Sheds (before :: (drops ++ (n.lexemes ++ behind)))
      (before :: ({ n with lead := carried.upon n.lead } : Node).lexemes ++ behind) := by
  obtain ⟨kind, lead, children, markers, type?⟩ := n
  obtain ⟨front, t, hlexemes, -⟩ := hn
  rw [Node.lexemes] at hlexemes
  simp only [Node.lexemes]
  cases htokens : Node.lexemesIn kind.layout children with
  | nil =>
      rw [htokens] at hlexemes
      cases front <;> cases hlexemes
  | cons first rest =>
      refine .single (.step [] _ (.inl hbefore) hdrops (.inr ?_) fun ks ls hks hls => ?_)
      · exact fun hnil => hbehind (List.append_eq_nil_iff.1 hnil).2
      · rw [String.toList_append] at hls ⊢
        exact (hcarried ks hks).upon hls

theorem sheds_close {close before : Token} (hclose : closes close = true)
    (hbefore : isTight before = true ∨ isNoSlash before = true) :
    Sheds (before :: (drops ++ [close]))
      [before, { close with lead := carried.upon close.lead }] := by
  refine .single (.step [] _ (hbefore.imp_right fun h => ⟨h, hclose⟩) hdrops (.inl hclose)
    fun ks ls hks hls => ?_)
  have hlead : Trivia (close.lead.toList ++ []) ls := by rwa [List.append_nil]
  have hupon := (hcarried ks hks).upon hlead
  rwa [List.append_nil] at hupon

end

/-- The members of a body, with what closes it behind them. -/
abbrev enclosed (items : List Node) (close : Token) : List Element :=
  items.map .node ++ [.token close]

theorem lexemesIn_close (close : Token) : Node.lexemesIn .sequence [.token close] = [close] := by
  simp [Node.lexemesIn, Element.lexemes, Layout.delimiterTokens]

theorem sheds_dropEmpty {items : List Node} {close before : Token} {carried : Carried}
    (drops : List Token) (hitems : ∀ n ∈ items, IsMember n) (hclose : closes close = true)
    (hdrops : ∀ d ∈ drops, d.text = ";") (hcarried : ∀ ks, Commented drops ks → carried.Holds ks)
    (hindent : ∀ c ∈ carried.indent, Text.isBlank c = true)
    (hspares : sparesEmpty carried (enclosed items close) = true)
    (hbefore : isTight before = true) :
    Sheds (before :: (drops ++ Node.lexemesIn .sequence (enclosed items close)))
      (before :: Node.lexemesIn .sequence (dropEmpty carried (enclosed items close))) := by
  induction items generalizing before carried drops with
  | nil =>
      show Sheds (before :: (drops ++ Node.lexemesIn .sequence [.token close]))
        (before :: Node.lexemesIn .sequence (dropEmpty carried [.token close]))
      rw [dropEmpty_close, lexemesIn_close, lexemesIn_close]
      exact sheds_close hdrops hcarried hclose (.inl hbefore)
  | cons n items ih =>
      obtain ⟨hn, hitems⟩ := List.forall_mem_cons.1 hitems
      rw [enclosed, List.map_cons, List.cons_append] at hspares ⊢
      rw [sparesEmpty] at hspares
      by_cases hempty : n.kind = .java .empty
      · rw [isEmpty_node.2 hempty, if_pos rfl, Bool.and_eq_true] at hspares
        rw [dropEmpty, if_pos (isEmpty_node.2 hempty), lexemesIn_node, hn.empty hempty,
          ← List.append_assoc]
        refine ih _ hitems (fun d hd => ?_) (fun ks hks => ?_)
          (Carried.indent_take hindent hspares.1) hspares.2 hbefore
        · rcases List.mem_append.1 hd with hd | hd
          · exact hdrops d hd
          · rw [List.mem_singleton.1 hd]
        · obtain ⟨front, behind, rfl, hfront, hbehind⟩ := commented_concat _ hks
          exact (hcarried front hfront).take hspares.1 hbehind
      · have hno : isEmpty (.node n) = false := by simpa using mt isEmpty_node.1 hempty
        rw [hno, if_neg Bool.false_ne_true] at hspares
        rw [dropEmpty_node hempty, lexemesIn_node, lexemesIn_node]
        have hbehind : Node.lexemesIn .sequence (enclosed items close) ≠ [] := by
          rw [enclosed, lexemesIn_sequence_append, lexemesIn_close]
          simp
        refine (sheds_member hdrops hcarried hn.ends hbefore hbehind).trans ?_
        -- Nothing waits behind the member, whose last token stands in front of what follows.
        obtain ⟨front, last, hlexemes, hlast⟩ :=
          hn.ends.with_lead endsClause_lead (carried.upon n.lead)
        have htight : isTight last = true := by simp [isTight, hlast]
        rw [hlexemes, List.cons_append, List.append_assoc, List.append_assoc, ← List.cons_append,
          ← List.cons_append]
        refine Sheds.append_left ?_ (before :: front)
        have hnone : (if carried.text.isEmpty then carried else {}).Holds [] := by
          split_ifs with htext
          · exact Carried.holds_of_empty (List.isEmpty_iff.1 htext) hindent
          · exact Carried.holds_empty
        refine ih [] hitems (List.forall_mem_nil _) (fun ks hks => ?_) hnone.indent hspares htight
        cases hks
        exact hnone

theorem dropEmpty_eq_self {es : List Element} (h : es.any isEmpty = false) :
    dropEmpty {} es = es := by
  induction es with
  | nil => rfl
  | cons e es ih =>
      rw [List.any_cons, Bool.or_eq_false_iff] at h
      rw [dropEmpty_cons es h.1, ih h.2]

theorem withoutEmpty_getD (n : Node) :
    (withoutEmpty n).getD n = { n with children := dropEmpty {} n.children } := by
  rw [withoutEmpty]
  split_ifs with hany
  · rfl
  · rw [dropEmpty_eq_self (by simpa using hany)]
    cases n
    rfl

theorem sheds_enclosed {items : List Node} {close before : Token}
    (hitems : ∀ n ∈ items, IsMember n) (hclose : closes close = true)
    (hspares : sparesEmpty {} (enclosed items close) = true) (hbefore : isTight before = true) :
    Sheds (before :: Node.lexemesIn .sequence (enclosed items close))
      (before :: Node.lexemesIn .sequence (dropEmpty {} (enclosed items close))) := by
  refine sheds_dropEmpty [] hitems hclose nofun (fun ks hks => ?_) nofun hspares hbefore
  cases hks
  exact Carried.holds_empty

theorem continues_of_empties {opening close : Token} {constants : Node} {items : List Node}
    (hconstants : constants.kind = .java .enumConstants)
    (hitems : ∀ m ∈ items, m.kind = .java .empty) :
    (.token opening :: .node constants :: enclosed items close : List Element).any continues =
      false := by
  have hnone : ∀ m ∈ items, continues (.node m) = false := fun m hm => by
    simp [continues, Element.node?, hitems m hm]
  simpa [continues, Element.node?, hconstants] using hnone

theorem sparesEmpty_cons {e : Element} (es : List Element) (h : isEmpty e = false) :
    sparesEmpty {} (e :: es) = sparesEmpty {} es := by
  rw [sparesEmpty, h]
  rfl

theorem sheds_members {ts : List Token} {items : List Node} {close : Token}
    (hitems : ∀ m ∈ items, IsMember m) (hclose : closes close = true)
    (hspares : sparesEmpty {} (enclosed items close) = true)
    (hstray : ∀ m ∈ items.head?, m.kind = .java .empty →
      ∃ front t, ts = front ++ [t] ∧ isTight t = true) :
    Sheds (ts ++ Node.lexemesIn .sequence (enclosed items close))
      (ts ++ Node.lexemesIn .sequence (dropEmpty {} (enclosed items close))) := by
  cases items with
  | nil =>
      rw [show dropEmpty {} (enclosed [] close) = enclosed [] close from dropEmpty_cons [] rfl]
  | cons m items =>
      by_cases hempty : m.kind = .java .empty
      · obtain ⟨front, t, rfl, ht⟩ := hstray m rfl hempty
        rw [List.append_assoc, List.append_assoc]
        exact (sheds_enclosed hitems hclose hspares ht).append_left front
      · have hno : isEmpty (.node m) = false := by simpa using mt isEmpty_node.1 hempty
        obtain ⟨hm, hitems⟩ := List.forall_mem_cons.1 hitems
        obtain ⟨front, last, hlexemes, hlast⟩ := hm.ends
        rw [enclosed, List.map_cons, List.cons_append] at hspares ⊢
        rw [sparesEmpty_cons _ hno] at hspares
        rw [dropEmpty_cons _ hno, lexemesIn_node, lexemesIn_node, hlexemes, List.append_assoc,
          List.append_assoc]
        refine Sheds.append_left (Sheds.append_left ?_ front) ts
        exact sheds_enclosed hitems hclose hspares (by simp [isTight, hlast])

theorem dropEmpty_enclosed {items : List Node} {close : Token} {carried : Carried}
    (h : ((dropEmpty carried (enclosed items close)).any fun e => e.node?.isSome) = false) :
    (∀ m ∈ items, m.kind = .java .empty) ∧
      ∃ lead, dropEmpty carried (enclosed items close) = [.token { close with lead }] := by
  induction items generalizing carried with
  | nil => exact ⟨nofun, _, dropEmpty_close carried close⟩
  | cons m items ih =>
      rw [enclosed, List.map_cons, List.cons_append] at h ⊢
      by_cases hempty : m.kind = .java .empty
      · rw [dropEmpty, if_pos (isEmpty_node.2 hempty)] at h ⊢
        obtain ⟨hall, hlead⟩ := ih h
        exact ⟨List.forall_mem_cons.2 ⟨hempty, hall⟩, hlead⟩
      · rw [dropEmpty_node hempty] at h
        cases h

/-! ### Anchored trivia -/

theorem anchored_lead {n : Node} (h : n.Everywhere Node.Anchored) (hne : n.lexemes ≠ [])
    (lead : String) : ({ n with lead } : Node).Everywhere Node.Anchored := by
  obtain ⟨-, hchildren⟩ := everywhere_iff.1 h
  refine everywhere_iff.2 ⟨fun hnil => absurd ?_ hne, hchildren⟩
  rw [lexemes_eq, leadTokens_eq_nil]
  exact hnil

theorem EndsWith.ne_nil {p : Token → Bool} {n : Node} (h : EndsWith p n) : n.lexemes ≠ [] := by
  obtain ⟨front, t, hlexemes, -⟩ := h
  rw [hlexemes]
  simp

theorem anchored_dropEmpty {carried : Carried} {es : List Element}
    (h : ∀ c, Element.node c ∈ es → c.Everywhere Node.Anchored ∧ c.lexemes ≠ []) :
    ∀ c, Element.node c ∈ dropEmpty carried es → c.Everywhere Node.Anchored := by
  induction es generalizing carried with
  | nil => exact nofun
  | cons e es ih =>
      have hes := fun c hc => h c (List.mem_cons_of_mem e hc)
      intro c hc
      rw [dropEmpty] at hc
      split_ifs at hc
      · exact ih hes c hc
      · rcases List.mem_cons.1 hc with rfl | hc
        · exact (h c List.mem_cons_self).1
        · exact ih hes c hc
      · rcases List.mem_cons.1 hc with hc | hc
        · cases e with
          | token t => cases hc
          | node n =>
              cases hc
              obtain ⟨hn, hne⟩ := h n List.mem_cons_self
              exact anchored_lead hn hne _
        · exact ih hes c hc

theorem anchored_unmarked {n : Node} (h : n.Everywhere Node.Anchored) (kind : MarkerKind) :
    (unmarked n kind).Everywhere Node.Anchored := by
  obtain ⟨hn, hchildren⟩ := everywhere_iff.1 h
  exact everywhere_iff.2 ⟨hn, hchildren⟩

/-! ### Terminators -/

/-- The tokens end with one that is no slash. -/
def EndsPlain (ts : List Token) : Prop :=
  ∃ front t, ts = front ++ [t] ∧ isNoSlash t = true

theorem EndsPlain.leadTokens {ts : List Token} (h : EndsPlain ts) (lead : String) :
    EndsPlain (leadTokens lead ts) := by
  obtain ⟨front, t, rfl, ht⟩ := h
  cases front with
  | nil => exact ⟨[], { t with lead := lead ++ t.lead }, rfl, ht⟩
  | cons x front => exact ⟨{ x with lead := lead ++ x.lead } :: front, t, rfl, ht⟩

theorem EndsPlain.append {ts us : List Token} (h : EndsPlain ts)
    (hus : ∀ t ∈ us, isNoSlash t = true) : EndsPlain (ts ++ us) := by
  obtain rfl | ⟨us, t, rfl⟩ := List.eq_nil_or_concat us
  · rwa [List.append_nil]
  · rw [List.concat_eq_append] at hus ⊢
    exact ⟨ts ++ us, t, (List.append_assoc ..).symm, hus t (by simp)⟩

theorem EndsPlain.cons {ts : List Token} (h : EndsPlain ts) (t : Token) : EndsPlain (t :: ts) := by
  obtain ⟨front, last, rfl, hlast⟩ := h
  exact ⟨t :: front, last, rfl, hlast⟩

theorem sheds_terminator {ts : List Token} (hts : EndsPlain ts) {removed : String}
    (hspares : Carried.keeps {} removed = true) {close : Token} (hclose : closes close = true) :
    Sheds (ts ++ [⟨.punct, removed, ";"⟩] ++ [close])
      (ts ++ [{ close with lead := (Carried.take {} removed).upon close.lead }]) := by
  obtain ⟨front, before, rfl, hbefore⟩ := hts
  rw [List.append_assoc, List.append_assoc, List.append_assoc]
  have hdrops : ∀ d ∈ [(⟨.punct, removed, ";"⟩ : Token)], d.text = ";" := by simp
  refine Sheds.append_left (sheds_close hdrops (fun ks hks => ?_) hclose (.inr hbefore)) front
  obtain ⟨behind, front, rfl, hfront, hbehind⟩ := commented_concat [] hks
  cases hfront
  exact Carried.holds_empty.take hspares hbehind

theorem plain_markedTokens {markers : Markers} {delimiter : Delimiter} {t : Token}
    (h : t ∈ markedTokens markers delimiter) : isNoSlash t = true := by
  rw [markedTokens, Option.mem_toList, Option.map_eq_some_iff] at h
  obtain ⟨marker, -, rfl⟩ := h
  cases delimiter <;> rfl

theorem plain_tokensBehind {markers : Markers} {separator : Delimiter} {closer : Option Delimiter}
    {t : Token} (h : t ∈ tokensBehind markers separator closer) : isNoSlash t = true := by
  rcases List.mem_append.1 h with h | h
  · exact plain_markedTokens h
  · cases closer with
    | none => cases h
    | some closer => exact plain_markedTokens h

section
variable {separator : Delimiter} {closer : Option Delimiter}

theorem lexemesIn_concat (separator : Delimiter) (closer : Option Delimiter)
    (front : List Element) (last : Node) :
    ∃ ts, ∀ markers, Node.lexemesIn (.separated separator closer)
        (front ++ [.node { last with markers }]) =
      ts ++ last.lexemes ++ tokensBehind markers separator closer := by
  induction front with
  | nil =>
      refine ⟨[], fun markers => ?_⟩
      cases last
      simp [Node.lexemesIn, Element.lexemes, Layout.delimiterTokens, Node.lexemes]
  | cons e front ih =>
      obtain ⟨ts, hts⟩ := ih
      refine ⟨e.lexemes ++ (Layout.separated separator closer).delimiterTokens e
        (front ++ [.node last]) ++ ts, fun markers => ?_⟩
      have hdelimiters : (Layout.separated separator closer).delimiterTokens e
            (front ++ [.node { last with markers }]) =
          (Layout.separated separator closer).delimiterTokens e (front ++ [.node last]) :=
        delimiterTokens_congr _ rfl (by simp [Element.node?])
      rw [List.cons_append, Node.lexemesIn, hts, hdelimiters]
      simp only [List.append_assoc]

theorem lexemesIn_unmarked (front : List Element) {last : Node} {removed : String}
    (hlast : EndsWith isNoSlash last)
    (hbehind : tokensBehind last.markers separator closer =
      tokensBehind (last.markers.erase .semicolon) separator closer ++ [⟨.punct, removed, ";"⟩]) :
    ∃ ts, EndsPlain ts ∧
      Node.lexemesIn (.separated separator closer) (front ++ [.node last]) =
        ts ++ [⟨.punct, removed, ";"⟩] ∧
      Node.lexemesIn (.separated separator closer) (front ++ [.node (unmarked last .semicolon)]) =
        ts := by
  obtain ⟨ts, hts⟩ := lexemesIn_concat separator closer front last
  obtain ⟨others, t, hlexemes, ht⟩ := hlast
  have hitem : EndsPlain (ts ++ last.lexemes) :=
    ⟨ts ++ others, t, by rw [hlexemes, List.append_assoc], ht⟩
  refine ⟨_, hitem.append fun t ht => plain_tokensBehind ht, ?_,
    hts (last.markers.erase .semicolon)⟩
  rw [List.append_assoc, ← hbehind, ← hts last.markers]
  cases last
  rfl

end

section
variable {markers : Markers} {terminator : Marker} (h : markers.get? .semicolon = some terminator)
include h

theorem tokensBehind_resources :
    tokensBehind markers .semicolon none =
      tokensBehind (markers.erase .semicolon) .semicolon none ++
        [⟨.punct, terminator.before, ";"⟩] := by
  have hlast : markedTokens markers .semicolon = [⟨.punct, terminator.before, ";"⟩] :=
    markedTokens_of_get h
  have hnone : markedTokens (markers.erase .semicolon) .semicolon = [] :=
    markedTokens_erase_self ..
  simp [tokensBehind, hlast, hnone]

theorem tokensBehind_constants :
    tokensBehind markers .comma (some .semicolon) =
      tokensBehind (markers.erase .semicolon) .comma (some .semicolon) ++
        [⟨.punct, terminator.before, ";"⟩] := by
  have hcomma : markedTokens (markers.erase .semicolon) .comma = markedTokens markers .comma :=
    markedTokens_erase_of_ne _ (by decide)
  have hresources := tokensBehind_resources h
  simp only [tokensBehind, Option.map_none, Option.getD_none, List.append_nil] at hresources
  simp only [tokensBehind, Option.map_some, Option.getD_some, hcomma, hresources,
    List.append_assoc]

end

theorem children_carryAfter {n : Node} {index : Nat} (close : Token) (removed : String)
    (h : n.children[index + 1]? = some (.token close)) :
    carryAfter n index removed = n.withChild (index + 1)
      (.token { close with lead := (Carried.take {} removed).upon close.lead }) := by
  rw [carryAfter, h]
  simp only [Carried.upon]
  split_ifs
  · obtain ⟨hindex, hat⟩ := List.getElem?_eq_some_iff.1 h
    have hset : n.children.set (index + 1) (.token close) = n.children := by
      rw [← hat, List.set_getElem_self]
    show n = { n with children := n.children.set (index + 1) (.token close) }
    rw [hset]
    cases n
    rfl
  · rfl

theorem sparesTerminator_concat {n : Node} (front : List Element) (last : Node)
    (h : n.children = front ++ [.node last]) :
    sparesTerminator n = (last.markers.get? .semicolon).all fun m => Carried.keeps {} m.before := by
  rw [sparesTerminator, withoutTerminator, h, List.getLast?_concat]
  exact Option.all_map

/-- What constants are made of: a terminator by itself, or items that do not end with a slash. -/
def ConstantsForm (es : List Element) : Prop :=
  es = [.token ⟨.punct, "", ";"⟩] ∨
    ∃ items : List Node, (∀ n ∈ items, EndsWith isNoSlash n) ∧ es = items.map .node

theorem lexemes_withoutTerminator {constants trimmed : Node} {removed : String}
    (hkind : constants.kind = .java .enumConstants) (hform : ConstantsForm constants.children)
    (hanchored : constants.Everywhere Node.Anchored)
    (h : withoutTerminator constants = some (trimmed, removed)) :
    constants.lexemes = trimmed.lexemes ++ [⟨.punct, removed, ";"⟩] ∧
      (trimmed.lexemes = [] ∨ EndsPlain trimmed.lexemes) ∧ trimmed.Everywhere Node.Anchored := by
  obtain ⟨-, hbelow⟩ := everywhere_iff.1 hanchored
  rcases hform with hchildren | ⟨items, hitems, hchildren⟩
  · rw [withoutTerminator, hchildren] at h
    cases h
    refine ⟨?_, .inl (lexemes_eq _), everywhere_iff.2 ⟨fun _ => rfl, by simp⟩⟩
    rw [lexemes_eq, lexemes_eq, hchildren, hkind]
    simp [Node.lexemesIn, Element.lexemes, Layout.delimiterTokens, Tree.Kind.layout, leadTokens]
  obtain rfl | ⟨front, last, rfl⟩ := List.eq_nil_or_concat items
  · rw [withoutTerminator, hchildren] at h
    cases h
  rw [List.concat_eq_append, List.map_append] at hchildren
  rw [withoutTerminator, hchildren, List.map_singleton, List.getLast?_concat] at h
  obtain ⟨terminator, hmarker, heq⟩ := Option.map_eq_some_iff.1 h
  cases heq
  obtain ⟨ts, hts, hlast, hopen⟩ := lexemesIn_unmarked (front.map .node) (hitems last (by simp))
    (tokensBehind_constants hmarker)
  have htrimmed : Node.lexemesIn constants.kind.layout
      ((front.map Element.node ++ [Element.node last]).dropLast ++
        [.node (unmarked last .semicolon)]) = ts := by
    rw [List.dropLast_concat, hkind]
    exact hopen
  have hne : ts ≠ [] := by
    obtain ⟨others, t, rfl, -⟩ := hts
    simp
  refine ⟨?_, ?_, everywhere_iff.2
    ⟨fun hnil => absurd (htrimmed.symm.trans hnil) hne, fun c hc => ?_⟩⟩
  · rw [lexemes_eq, lexemes_eq, hchildren, List.map_singleton, htrimmed, ← leadTokens_append _ hne,
      ← hlast, hkind]
    rfl
  · rw [lexemes_eq, htrimmed]
    exact .inr (hts.leadTokens _)
  · rw [List.dropLast_concat] at hc
    rcases List.mem_append.1 hc with hc | hc
    · exact hbelow c (by rw [hchildren]; exact List.mem_append_left _ hc)
    · cases List.mem_singleton.1 hc
      exact anchored_unmarked (hbelow last (by rw [hchildren]; simp)) _

end Codemod.Recipes.Semicolons
