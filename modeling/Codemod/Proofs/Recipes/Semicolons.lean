import Codemod.Proofs.Java.StaticImports
import Codemod.Proofs.Java.Units
import Codemod.Proofs.Tree.Sweep
import Codemod.Recipes.Semicolons
import Mathlib.Data.List.Forall2

/-!
The words that the recipe for needless semicolons leaves. Each word of a unit is judged by the
place where it stands; the walk takes out exactly those that are needless and keeps all others in
order, whatever trivia moves along.
-/

namespace Codemod.Tree

/-- What a token is and how it reads, without the trivia in front of it. -/
abbrev Word :=
  TokenKind × String

/-- The token without the trivia in front of it. -/
def Token.word (t : Token) : Word :=
  (t.kind, t.text)

/-- The words of a node in order, its delimiters among them. -/
def Node.words (n : Node) : List Word :=
  n.lexemes.map Token.word

/-- The words of a child. -/
def Element.words (e : Element) : List Word :=
  e.lexemes.map Token.word

/-- The words of some children in a layout. -/
def Node.wordsIn (layout : Layout) (es : List Element) : List Word :=
  (Node.lexemesIn layout es).map Token.word

theorem words_leadTokens (lead : String) (ts : List Token) :
    (leadTokens lead ts).map Token.word = ts.map Token.word := by
  cases ts <;> rfl

theorem words_node (n : Node) : n.words = Node.wordsIn n.kind.layout n.children := by
  rw [Node.words, lexemes_eq, words_leadTokens, Node.wordsIn]

theorem wordsIn_cons (layout : Layout) (e : Element) (es : List Element) :
    Node.wordsIn layout (e :: es) =
      e.words ++ (layout.delimiterTokens e es).map Token.word ++ Node.wordsIn layout es := by
  rw [Node.wordsIn, Node.lexemesIn, List.map_append, List.map_append]
  rfl

/-- The children are the same but for the trivia in front of them. -/
def Reled : Element → Element → Prop :=
  fun e e' => ∃ lead, e' = e.withLead lead

theorem reled_refl (e : Element) : Reled e e :=
  ⟨e.lead, by
    cases e with
    | token t => rfl
    | node n => cases n; rfl⟩

theorem words_reled {e e' : Element} (h : Reled e e') : e'.words = e.words := by
  obtain ⟨lead, rfl⟩ := h
  cases e with
  | token t => rfl
  | node n =>
      show Node.words _ = Node.words _
      rw [words_node, words_node]

theorem any_node_reled {es es' : List Element} (h : List.Forall₂ Reled es es') :
    (es'.any fun e => e.node?.isSome) = es.any fun e => e.node?.isSome := by
  induction h with
  | nil => rfl
  | cons h _ ih =>
      obtain ⟨lead, rfl⟩ := h
      rw [List.any_cons, List.any_cons, ih]
      congr 1
      cases ‹Element› <;> rfl

theorem delimiterTokens_congr (layout : Layout) {e e' : Element} {es es' : List Element}
    (he : e'.node?.map Node.markers = e.node?.map Node.markers)
    (hes : (es'.any fun e => e.node?.isSome) = es.any fun e => e.node?.isSome) :
    layout.delimiterTokens e' es' = layout.delimiterTokens e es := by
  cases layout with
  | sequence => rfl
  | separated separator closer =>
      cases e with
      | token t =>
          cases e' with
          | token t' => rfl
          | node n' => cases he
      | node n =>
          cases e' with
          | token t' => cases he
          | node n' =>
              have hmarkers : n'.markers = n.markers := Option.some.inj he
              rw [Layout.delimiterTokens, Layout.delimiterTokens, hes, hmarkers]

theorem wordsIn_reled (layout : Layout) {es es' : List Element} (h : List.Forall₂ Reled es es') :
    Node.wordsIn layout es' = Node.wordsIn layout es := by
  induction h with
  | nil => rfl
  | @cons e e' es es' h hs ih =>
      have hmarkers : e'.node?.map Node.markers = e.node?.map Node.markers := by
        obtain ⟨lead, rfl⟩ := h
        cases e <;> rfl
      rw [wordsIn_cons, wordsIn_cons, ih, words_reled h,
        delimiterTokens_congr layout hmarkers (any_node_reled hs)]

end Codemod.Tree

namespace Codemod.Recipes.Semicolons

open Codemod.Tree Codemod.Java

/-! ### Needless semicolons -/

/-- The bodies in which an empty statement or an empty member is needless. -/
def isBodyKind (kind : Tree.Kind) : Bool :=
  kind == .java .block || kind == .java .classBody || kind == .java .enumBody

/-- The token is a semicolon that need not stand at the end of a list: behind the last resource of
a try statement, or behind constants where `ends` says that no member follows them. -/
def isTerminator (kind : Tree.Kind) (ends : Bool) (t : Token) : Bool :=
  t.text == ";" && (kind == .java .tryResources || kind == .java .enumConstants && ends)

/-- A member that is more than a semicolon is among the children. -/
def holdsMember (es : List Element) : Bool :=
  es.any fun e => e.node?.isSome && !isEmpty e

mutual

/-- The words of a node, each with whether it is a needless semicolon. `ends` says that the node
stands in the body of an enumeration with no member behind it. -/
def judge (ends : Bool) : Node → List (Word × Bool)
  | ⟨kind, _, children, _, _⟩ => judgeIn kind ends children

/-- The words of a child. -/
def judgeChild (kind : Tree.Kind) (ends follows : Bool) : Element → List (Word × Bool)
  | .token t => [(t.word, isTerminator kind ends t)]
  | .node n =>
      if isBodyKind kind && n.kind == .java .empty then n.words.map fun w => (w, true)
      else judge (kind == .java .enumBody && !follows) n

/-- The words of some children of a node of the kind. -/
def judgeIn (kind : Tree.Kind) (ends : Bool) : List Element → List (Word × Bool)
  | [] => []
  | e :: es =>
      let last := !(es.any fun e => e.node?.isSome)
      judgeChild kind ends (holdsMember es) e
        ++ (kind.layout.delimiterTokens e es).map (fun t => (t.word, last && isTerminator kind ends t))
        ++ judgeIn kind ends es

end

/-- The words that are not needless. -/
def kept (words : List (Word × Bool)) : List Word :=
  (words.filter fun w => !w.2).map Prod.fst

theorem kept_append (ws vs : List (Word × Bool)) : kept (ws ++ vs) = kept ws ++ kept vs := by
  simp [kept]

theorem kept_needed {ws : List Word} : kept (ws.map fun w => (w, false)) = ws := by
  simp [kept, List.filter_map, Function.comp_def]

theorem judge_eq (ends : Bool) (n : Node) : judge ends n = judgeIn n.kind ends n.children := by
  cases n
  rw [judge]

theorem isTerminator_of_ne {kind : Tree.Kind} {ends : Bool} (hresources : kind ≠ .java .tryResources)
    (hconstants : kind = .java .enumConstants → ends = false) (t : Token) :
    isTerminator kind ends t = false := by
  by_cases hkind : kind = .java .enumConstants
  · simp [isTerminator, hkind, hconstants hkind]
  · simp [isTerminator, hresources, hkind]

theorem judge_ends {n : Node} (h : n.kind ≠ .java .enumConstants) (ends : Bool) :
    judge ends n = judge false n := by
  have hterminator : ∀ ends, isTerminator n.kind ends = isTerminator n.kind false := by
    intro ends
    funext t
    rw [isTerminator, isTerminator, beq_eq_false_iff_ne.2 h, Bool.false_and, Bool.false_and]
  have hlist : ∀ es : List Element, judgeIn n.kind ends es = judgeIn n.kind false es := by
    intro es
    induction es with
    | nil => rfl
    | cons e es ih =>
        rw [judgeIn, judgeIn, ih, hterminator ends]
        cases e with
        | token t => rw [judgeChild, judgeChild, hterminator ends]
        | node m => rw [judgeChild, judgeChild]
  rw [judge_eq, judge_eq, hlist]

/-! ### Trimmed nodes -/

/-- The constants of an enumeration without their terminator. -/
def unterminated (n : Node) : Node :=
  ((withoutTerminator n).map Prod.fst).getD n

/-- The node stands for the other one: its words are those that are not needless. Constants lose
their terminator only with the body around them. -/
structure Trims (n n' : Node) : Prop where
  kind : n'.kind = n.kind
  markers : n'.markers = n.markers
  words : n'.words = kept (judge false n)
  constants : n.kind = .java .enumConstants → (unterminated n').words = kept (judge true n)

/-- The child is a token or stands for the other one. -/
inductive TrimsChild : Element → Element → Prop where
  | token (t : Token) : TrimsChild (.token t) (.token t)
  | node {n n' : Node} (h : Trims n n') : TrimsChild (.node n) (.node n')

section
variable {kind : Tree.Kind} {ends : Bool} {es es' : List Element}

theorem isEmpty_trims {e e' : Element} (h : TrimsChild e e') : isEmpty e' = isEmpty e := by
  cases h with
  | token t => rfl
  | node h => simp [isEmpty, Element.node?, h.kind]

theorem any_node_trims (h : List.Forall₂ TrimsChild es es') :
    (es'.any fun e => e.node?.isSome) = es.any fun e => e.node?.isSome := by
  induction h with
  | nil => rfl
  | cons h _ ih =>
      rw [List.any_cons, List.any_cons, ih]
      cases h <;> rfl

theorem holdsMember_trims (h : List.Forall₂ TrimsChild es es') :
    holdsMember es' = holdsMember es := by
  induction h with
  | nil => rfl
  | cons h _ ih =>
      rw [holdsMember, holdsMember, List.any_cons, List.any_cons, isEmpty_trims h]
      rw [holdsMember, holdsMember] at ih
      rw [ih]
      cases h <;> rfl

theorem delimiterTokens_trims (layout : Layout) {e e' : Element} (he : TrimsChild e e')
    (h : List.Forall₂ TrimsChild es es') :
    layout.delimiterTokens e' es' = layout.delimiterTokens e es := by
  refine delimiterTokens_congr layout ?_ (any_node_trims h)
  cases he with
  | token t => rfl
  | node hn => exact congrArg some hn.markers

theorem kept_unterminated {ts : List Token} (h : ∀ t ∈ ts, isTerminator kind ends t = false)
    (last : Bool) :
    kept (ts.map fun t => (t.word, last && isTerminator kind ends t)) = ts.map Token.word := by
  have hmap : (ts.map fun t => (t.word, last && isTerminator kind ends t)) =
      (ts.map Token.word).map fun w => (w, false) := by
    rw [List.map_map]
    refine List.map_congr_left fun t ht => ?_
    simp [h t ht]
  rw [hmap, kept_needed]

theorem words_trims (hbody : isBodyKind kind = false)
    (hterminator : ∀ t, isTerminator kind ends t = false) (h : List.Forall₂ TrimsChild es es') :
    Node.wordsIn kind.layout es' = kept (judgeIn kind ends es) := by
  have henum : (kind == .java .enumBody) = false := by
    simp only [isBodyKind, Bool.or_eq_false_iff] at hbody
    exact hbody.2
  induction h with
  | nil => rfl
  | @cons e e' es es' he hs ih =>
      rw [wordsIn_cons, judgeIn, kept_append, kept_append, ih, delimiterTokens_trims _ he hs,
        kept_unterminated fun t _ => hterminator t]
      congr 2
      cases he with
      | token t => simp [judgeChild, hterminator, kept, Element.words, Element.lexemes]
      | node hn =>
          rw [judgeChild, hbody, henum]
          exact hn.words

theorem words_filter_trims (hbody : isBodyKind kind = true)
    (hconstants : kind = .java .enumBody →
      ∀ n, Element.node n ∈ es → n.kind ≠ .java .enumConstants)
    (h : List.Forall₂ TrimsChild es es') :
    Node.wordsIn .sequence (es'.filter fun e => !isEmpty e) = kept (judgeIn kind ends es) := by
  have hterminator : ∀ t, isTerminator kind ends t = false := by
    refine isTerminator_of_ne ?_ ?_ <;> rintro rfl <;> cases hbody
  have hlayout : kind.layout = .sequence := by
    simp only [isBodyKind, Bool.or_eq_true, beq_iff_eq] at hbody
    rcases hbody with (rfl | rfl) | rfl <;> rfl
  induction h with
  | nil => rfl
  | @cons e e' es es' he hs ih =>
      have ih := ih fun hkind n hn => hconstants hkind n (List.mem_cons_of_mem _ hn)
      rw [judgeIn, kept_append, kept_append, ← ih, hlayout, List.filter_cons, isEmpty_trims he]
      cases he with
      | token t =>
          simp [isEmpty, wordsIn_cons, judgeChild, hterminator, kept, Element.words,
            Element.lexemes, Element.node?, Layout.delimiterTokens]
      | @node n n' hn =>
          by_cases hempty : n.kind = .java .empty
          · have hyes : isEmpty (.node n) = true := by simp [isEmpty, Element.node?, hempty]
            rw [judgeChild, hbody, hyes]
            simp [hempty, kept, Layout.delimiterTokens]
          · have hno : isEmpty (.node n) = false := by simp [isEmpty, Element.node?, hempty]
            have hsame : judge (kind == .java .enumBody && !holdsMember es) n = judge false n := by
              by_cases hkind : kind = .java .enumBody
              · exact judge_ends (hconstants hkind n List.mem_cons_self) _
              · rw [beq_eq_false_iff_ne.2 hkind, Bool.false_and]
            have hwords : (Element.node n').words = kept (judge false n) := hn.words
            rw [judgeChild, hno, hsame, hbody, beq_eq_false_iff_ne.2 hempty, Bool.not_false, if_pos rfl,
              wordsIn_cons, hwords]
            simp [kept, Layout.delimiterTokens]

theorem words_tokens {ts : List Token} (h : ∀ t ∈ ts, isTerminator kind ends t = false) :
    Node.wordsIn kind.layout (ts.map .token) = kept (judgeIn kind ends (ts.map .token)) := by
  induction ts with
  | nil => rfl
  | cons t ts ih =>
      obtain ⟨ht, hts⟩ := List.forall_mem_cons.1 h
      have hdelimiters : kind.layout.delimiterTokens (.token t) (ts.map .token) = [] := by
        cases kind.layout <;> rfl
      rw [List.map_cons, wordsIn_cons, judgeIn, kept_append, kept_append, ← ih hts, hdelimiters,
        judgeChild, ht]
      rfl

theorem words_last {last last' : Node} {markers : Markers} {after : List Token}
    (hbody : isBodyKind kind = false)
    (hes : ∀ t, Element.token t ∈ es → isTerminator kind ends t = false)
    (hafter : ∀ t ∈ after, isTerminator kind ends t = false)
    (h : List.Forall₂ TrimsChild es es') (hlast : Trims last last')
    (hbehind : (kind.layout.delimiterTokens (.node { last' with markers }) []).map Token.word =
      kept ((kind.layout.delimiterTokens (.node last) []).map
        fun t => (t.word, isTerminator kind ends t))) :
    Node.wordsIn kind.layout (es' ++ .node { last' with markers } :: after.map .token) =
      kept (judgeIn kind ends (es ++ .node last :: after.map .token)) := by
  have henum : (kind == .java .enumBody) = false := by
    simp only [isBodyKind, Bool.or_eq_false_iff] at hbody
    exact hbody.2
  have hchild : ∀ {n n' : Node} (follows : Bool), Trims n n' →
      n'.words = kept (judgeChild kind ends follows (.node n)) := by
    intro n n' follows hn
    rw [judgeChild, hbody, henum]
    exact hn.words
  induction h with
  | nil =>
      have htokens : (after.map Element.token).any (fun e => e.node?.isSome) = false := by
        simp [Element.node?]
      have hsame : ∀ n : Node, kind.layout.delimiterTokens (.node n) (after.map .token) =
          kind.layout.delimiterTokens (.node n) [] :=
        fun n => delimiterTokens_congr kind.layout rfl htokens
      rw [List.nil_append, List.nil_append, wordsIn_cons, judgeIn, kept_append, kept_append,
        words_tokens hafter, hsame, hsame, htokens, hbehind]
      congr 2
      have hwords : (Element.node { last' with markers }).words = last'.words := by
        show Node.words _ = _
        rw [words_node, words_node]
      rw [hwords]
      exact hchild _ hlast
  | @cons e e' es es' he hs ih =>
      have ih := ih fun t ht => hes t (List.mem_cons_of_mem _ ht)
      have hany : ∀ (es : List Element) (n : Node) (es' : List Element),
          ((es ++ .node n :: es').any fun e => e.node?.isSome) = true := by
        intro es n es'
        simp [Element.node?]
      have hdelimiters : kind.layout.delimiterTokens e'
            (es' ++ .node { last' with markers } :: after.map .token) =
          kind.layout.delimiterTokens e (es ++ .node last :: after.map .token) := by
        refine delimiterTokens_congr kind.layout ?_ (by rw [hany, hany])
        cases he with
        | token t => rfl
        | node hn => exact congrArg some hn.markers
      rw [List.cons_append, List.cons_append, wordsIn_cons, judgeIn, kept_append, kept_append, ← ih,
        hdelimiters, hany]
      congr 2
      · cases he with
        | token t =>
            rw [judgeChild, hes t List.mem_cons_self]
            rfl
        | node hn => exact hchild _ hn
      · have hneeded := @kept_needed ((kind.layout.delimiterTokens e
          (es ++ .node last :: after.map .token)).map Token.word)
        rw [List.map_map] at hneeded
        exact hneeded.symm

end

/-! ### Bodies -/

theorem reled_dropEmpty (carried : Carried) (es : List Element) :
    List.Forall₂ Reled (es.filter fun e => !isEmpty e) (dropEmpty carried es) := by
  induction es generalizing carried with
  | nil => exact .nil
  | cons e es ih =>
      rw [dropEmpty]
      cases hempty : isEmpty e with
      | true => simpa [hempty] using ih (carried.take e.lead)
      | false =>
          rw [List.filter_cons, hempty]
          simp only [Bool.not_false, if_true, Bool.false_eq_true, if_false]
          split_ifs
          · exact .cons (reled_refl e) (ih carried)
          · exact .cons ⟨_, rfl⟩ (ih {})

/-- Nothing moves to what stands in front of the empty children. -/
theorem dropEmpty_cons {e : Element} (es : List Element) (h : isEmpty e = false) :
    dropEmpty {} (e :: es) = e :: dropEmpty {} es := by
  rw [dropEmpty, h]
  rfl

/-- A body without its empty members holds the others, with other trivia in front. -/
theorem reled_withoutEmpty (n : Node) :
    List.Forall₂ Reled (n.children.filter fun e => !isEmpty e)
      ((withoutEmpty n).getD n).children := by
  rw [withoutEmpty]
  split_ifs with hany
  · exact reled_dropEmpty {} n.children
  · have hall : n.children.filter (fun e => !isEmpty e) = n.children := by
      rw [List.filter_eq_self]
      intro e he
      have hno : isEmpty e = false := by simpa using fun h => hany (List.any_eq_true.2 ⟨e, he, h⟩)
      rw [hno]
      rfl
    rw [hall]
    exact List.forall₂_same.2 fun e _ => reled_refl e

theorem kind_withoutEmpty (n : Node) : ((withoutEmpty n).getD n).kind = n.kind := by
  rw [withoutEmpty]
  split_ifs <;> rfl

theorem markers_withoutEmpty (n : Node) : ((withoutEmpty n).getD n).markers = n.markers := by
  rw [withoutEmpty]
  split_ifs <;> rfl

/-- Comments that move to the next child change no word. -/
theorem reled_carryAfter (n : Node) (index : Nat) (removed : String) :
    (carryAfter n index removed).kind = n.kind ∧ (carryAfter n index removed).markers = n.markers ∧
      List.Forall₂ Reled n.children (carryAfter n index removed).children := by
  have hsame : List.Forall₂ Reled n.children n.children :=
    List.forall₂_same.2 fun e _ => reled_refl e
  rw [carryAfter]
  split
  · rename_i next hnext
    split_ifs
    · exact ⟨rfl, rfl, hsame⟩
    · refine ⟨rfl, rfl, ?_⟩
      show List.Forall₂ Reled n.children (n.children.set (index + 1) _)
      revert hnext
      generalize n.children = es
      generalize index + 1 = i
      intro hnext
      induction es generalizing i with
      | nil => cases hnext
      | cons e es ih =>
          have hrest : List.Forall₂ Reled es es := List.forall₂_same.2 fun e _ => reled_refl e
          cases i with
          | zero =>
              cases hnext
              exact .cons ⟨_, rfl⟩ hrest
          | succ i => exact .cons (reled_refl e) (ih i hnext)
  · exact ⟨rfl, rfl, hsame⟩

/-! ### Constants and resources -/

theorem forall₂_append {α β : Type} {R : α → β → Prop} {as bs : List α} {cs : List β}
    (h : List.Forall₂ R (as ++ bs) cs) :
    ∃ as' bs', List.Forall₂ R as as' ∧ List.Forall₂ R bs bs' ∧ cs = as' ++ bs' := by
  induction as generalizing cs with
  | nil => exact ⟨[], cs, .nil, h, rfl⟩
  | cons a as ih =>
      cases h with
      | cons h hs =>
          obtain ⟨as', bs', has, hbs, rfl⟩ := ih hs
          exact ⟨_ :: as', bs', .cons h has, hbs, rfl⟩

theorem trims_last {front : List Element} {last : Node} {after : List Token} {es' : List Element}
    (h : List.Forall₂ TrimsChild (front ++ .node last :: after.map .token) es') :
    ∃ front' last', List.Forall₂ TrimsChild front front' ∧ Trims last last' ∧
      es' = front' ++ .node last' :: after.map .token := by
  obtain ⟨front', behind, hfront, hbehind, rfl⟩ := forall₂_append h
  have htokens : ∀ {ts : List Token} {es : List Element},
      List.Forall₂ TrimsChild (ts.map .token) es → es = ts.map .token := by
    intro ts
    induction ts with
    | nil =>
        intro es h
        cases h
        rfl
    | cons t ts ih =>
        intro es h
        cases h with
        | cons h hs =>
            cases h
            rw [ih hs]
            rfl
  cases hbehind with
  | cons hlast hafter =>
      cases hlast with
      | node hlast => exact ⟨front', _, hfront, hlast, by rw [htokens hafter]⟩

theorem erase_of_get {markers : Markers} {kind : MarkerKind} (h : markers.get? kind = none) :
    markers.erase kind = markers := by
  rw [Markers.erase, List.filter_eq_self]
  intro m hm
  have hne := List.find?_eq_none.1 h m hm
  simpa using hne

theorem words_unterminated_eq {n last : Node} {front : List Element}
    (h : n.children = front ++ [.node last]) :
    (unterminated n).words = Node.wordsIn n.kind.layout
      (front ++ [.node { last with markers := last.markers.erase .semicolon }]) := by
  have hlast : n.children.getLast? = some (.node last) := by rw [h, List.getLast?_concat]
  rw [unterminated, withoutTerminator, hlast]
  cases hmarker : last.markers.get? .semicolon with
  | none =>
      rw [erase_of_get hmarker]
      simp only [hmarker, Option.map_none, Option.getD_none]
      rw [words_node, h]
      cases last
      rfl
  | some terminator =>
      simp only [hmarker, Option.map_some, Option.getD_some]
      rw [words_node, h, List.dropLast_concat]
      rfl

theorem kept_terminator (markers : Markers) :
    kept ((tokensBehind markers .comma (some .semicolon)).map
        fun t => (t.word, isTerminator (.java .enumConstants) true t)) =
      (tokensBehind (markers.erase .semicolon) .comma (some .semicolon)).map Token.word := by
  have hcomma : (markers.erase .semicolon).get? Delimiter.comma.marker =
      markers.get? Delimiter.comma.marker := Markers.get?_erase_of_ne _ (by decide)
  have hsemicolon : (markers.erase .semicolon).get? Delimiter.semicolon.marker = none :=
    Markers.get?_erase_self _ _
  simp only [tokensBehind, markedTokens, Option.map_some, Option.getD_some, hcomma, hsemicolon,
    List.map_append, kept_append]
  cases markers.get? Delimiter.comma.marker <;> cases markers.get? Delimiter.semicolon.marker <;>
    rfl

theorem words_unterminated {n : Node} {es' : List Element} (hkind : n.kind = .java .enumConstants)
    (hshape : KindShape .enumConstants n.children) (h : List.Forall₂ TrimsChild n.children es') :
    (unterminated { n with children := es' }).words = kept (judge true n) := by
  have hbody : isBodyKind n.kind = false := by rw [hkind]; rfl
  rw [judge_eq]
  rcases hshape with hchildren | ⟨items, _, hchildren⟩
  · rw [hchildren] at h ⊢
    cases h with
    | cons h hs =>
        cases hs
        cases h
        rw [unterminated, words_node, hkind]
        rfl
  obtain rfl | ⟨front, last, rfl⟩ := List.eq_nil_or_concat items
  · rw [hchildren] at h ⊢
    cases h
    rw [unterminated, words_node, hkind]
    rfl
  rw [List.concat_eq_append, List.map_append, List.map_singleton] at hchildren
  rw [hchildren] at h ⊢
  obtain ⟨front', last', hfront, hlast, rfl⟩ := @trims_last _ last [] _ h
  have hwords := @words_last n.kind true _ _ last last' (last.markers.erase .semicolon) [] hbody
    (by simp) nofun hfront hlast ?_
  · rw [List.map_nil] at hwords
    refine (words_unterminated_eq (n := { n with children := front' ++ [.node last'] }) rfl).trans ?_
    rw [← hwords, hlast.markers]
  · rw [hkind]
    exact (kept_terminator last.markers).symm

theorem enclosed_items {opening closing : String} {children : List Element} {items : List Node}
    (h : Enclosed opening closing children (items.map .node)) :
    ∃ last : Token, last.text = closing ∧
      children = .token ⟨.punct, "", opening⟩ :: (items.map .node ++ [.token last]) := by
  obtain ⟨lead, rfl⟩ := h
  exact ⟨_, rfl, rfl⟩

theorem kept_resourceTerminator (markers : Markers) :
    kept ((tokensBehind markers .semicolon none).map
        fun t => (t.word, isTerminator (.java .tryResources) false t)) =
      (tokensBehind (markers.erase .semicolon) .semicolon none).map Token.word := by
  have hsemicolon : (markers.erase .semicolon).get? Delimiter.semicolon.marker = none :=
    Markers.get?_erase_self _ _
  simp only [tokensBehind, markedTokens, Option.map_none, Option.getD_none, hsemicolon,
    List.map_append, kept_append]
  cases markers.get? Delimiter.semicolon.marker <;> rfl

section
variable {n last : Node} {front : List Element} {close : Token}
  (h : n.children = front ++ [.node last, .token close]) (hlast : last.kind = .java .resource)
include h hlast

theorem withoutResourceTerminator_eq :
    withoutResourceTerminator n = (last.markers.get? .semicolon).map fun terminator =>
      carryAfter (n.withChild front.length (.node (unmarked last .semicolon))) front.length
        terminator.before := by
  have hindex : lastResource? n.children = some front.length := by
    rw [h]
    exact lastIndex_append front [.token close] (by simp [Element.node?, hlast])
      (by simp [Element.node?])
  have hat : n.children[front.length]? = some (.node last) := by simp [h]
  simp only [withoutResourceTerminator, hindex, hat, Option.bind_eq_bind, Option.bind_some,
    Element.node?]
  cases last.markers.get? .semicolon <;> rfl

theorem words_withoutResourceTerminator :
    let trimmed := (withoutResourceTerminator n).getD n
    trimmed.kind = n.kind ∧ trimmed.markers = n.markers ∧
      trimmed.words = Node.wordsIn n.kind.layout
        (front ++ [.node { last with markers := last.markers.erase .semicolon }, .token close]) := by
  rw [withoutResourceTerminator_eq h hlast]
  cases hmarker : last.markers.get? .semicolon with
  | none =>
      refine ⟨rfl, rfl, ?_⟩
      rw [Option.map_none, Option.getD_none, erase_of_get hmarker, words_node, h]
      cases last
      rfl
  | some terminator =>
      obtain ⟨hkind, hmarkers, hchildren⟩ := reled_carryAfter
        (n.withChild front.length (.node (unmarked last .semicolon))) front.length terminator.before
      refine ⟨hkind, hmarkers, ?_⟩
      rw [Option.map_some, Option.getD_some, words_node, hkind, wordsIn_reled _ hchildren]
      have hset : (n.withChild front.length (.node (unmarked last .semicolon))).children =
          front ++ [.node { last with markers := last.markers.erase .semicolon }, .token close] := by
        show n.children.set front.length _ = _
        rw [h, List.set_append_right _ _ (Nat.le_refl _), Nat.sub_self]
        rfl
      rw [hset]
      rfl

end

theorem trims_resources {n : Node} {es' : List Element} (hkind : n.kind = .java .tryResources)
    (hshape : KindShape .tryResources n.children) (h : List.Forall₂ TrimsChild n.children es') :
    Trims n ((withoutResourceTerminator { n with children := es' }).getD
      { n with children := es' }) := by
  have hbody : isBodyKind n.kind = false := by rw [hkind]; rfl
  have hother : n.kind ≠ .java .enumConstants := by simp [hkind]
  obtain ⟨items, hitems, henclosed⟩ := hshape
  obtain ⟨close, hclose, hchildren⟩ := enclosed_items henclosed
  obtain rfl | ⟨front, last, rfl⟩ := List.eq_nil_or_concat items
  · have hes : es' = n.children := by
      rw [hchildren] at h ⊢
      cases h with
      | cons h hs =>
          cases h
          cases hs with
          | cons h hs =>
              cases h
              cases hs
              rfl
    have hnone : withoutResourceTerminator { n with children := es' } = none := by
      simp only [withoutResourceTerminator, hes, hchildren]
      rfl
    rw [hnone]
    refine ⟨rfl, rfl, ?_, fun h => absurd h hother⟩
    rw [Option.getD_none, words_node, judge_eq, hes, hchildren, hkind]
    simp [judgeIn, judgeChild, Node.wordsIn, Node.lexemesIn, Element.lexemes, kept,
      Layout.delimiterTokens, Tree.Kind.layout, isTerminator, Token.word, hclose]
  · rw [List.concat_eq_append, List.map_append, List.map_singleton, List.append_assoc,
      List.singleton_append, ← List.cons_append] at hchildren
    rw [hchildren] at h
    obtain ⟨front', last', hfront, hlast, rfl⟩ := @trims_last _ last [close] _ h
    have hwords := @words_last n.kind false _ _ last last' (last.markers.erase .semicolon) [close]
      hbody ?_ ?_ hfront hlast ?_
    · have hresource : last'.kind = .java .resource := by
        rw [hlast.kind]
        exact hitems last (by simp)
      obtain ⟨hkind', hmarkers', hwords'⟩ := words_withoutResourceTerminator
        (n := { n with children := front' ++ [.node last', .token close] }) rfl hresource
      refine ⟨hkind', hmarkers', ?_, fun h => absurd h hother⟩
      rw [judge_eq, hchildren]
      refine hwords'.trans (Eq.trans ?_ hwords)
      rw [hlast.markers]
      rfl
    · intro t ht
      rcases List.mem_cons.1 ht with ht | ht
      · cases ht
        rw [hkind]
        rfl
      · simp at ht
    · intro t ht
      rw [List.mem_singleton.1 ht, hkind, isTerminator, hclose]
      rfl
    · rw [hkind]
      exact (kept_resourceTerminator last.markers).symm

/-! ### The walk -/

section
variable {n : Node} {es' : List Element}

theorem trims_body (hkind : n.kind = .java .block ∨ n.kind = .java .classBody)
    (h : List.Forall₂ TrimsChild n.children es') :
    Trims n ((withoutEmpty { n with children := es' }).getD { n with children := es' }) := by
  have hbody : isBodyKind n.kind = true := by rcases hkind with hkind | hkind <;> rw [hkind] <;> rfl
  have hlayout : n.kind.layout = .sequence := by
    rcases hkind with hkind | hkind <;> rw [hkind] <;> rfl
  refine ⟨kind_withoutEmpty _, markers_withoutEmpty _, ?_, fun hconstants => ?_⟩
  · rw [words_node, kind_withoutEmpty, judge_eq, hlayout,
      wordsIn_reled _ (reled_withoutEmpty { n with children := es' })]
    refine words_filter_trims hbody (fun henum => ?_) h
    rcases hkind with hkind | hkind <;> rw [hkind] at henum <;> cases henum
  · rcases hkind with hkind | hkind <;> rw [hkind] at hconstants <;> cases hconstants

theorem trimEnumBody_getD (n : Node) :
    (trimEnumBody n).getD n =
      (withoutConstantsTerminator ((withoutEmpty n).getD n)).getD ((withoutEmpty n).getD n) := by
  rw [trimEnumBody]
  cases withoutConstantsTerminator ((withoutEmpty n).getD n) <;> rfl

section
variable {constants : Node} {opening : Token} {rest : List Element}
  (hconstants : constants.kind = .java .enumConstants)
  (hchildren : n.children = .token opening :: .node constants :: rest)
include hconstants hchildren

theorem children_withoutEmpty :
    ∃ rest', List.Forall₂ Reled (rest.filter fun e => !isEmpty e) rest' ∧
      ((withoutEmpty n).getD n).children = .token opening :: .node constants :: rest' := by
  have hno : isEmpty (.node constants) = false := by simp [isEmpty, Element.node?, hconstants]
  have hreled := reled_withoutEmpty n
  rw [withoutEmpty] at hreled ⊢
  split_ifs at hreled ⊢
  · refine ⟨dropEmpty {} rest, reled_dropEmpty {} rest, ?_⟩
    show dropEmpty {} n.children = _
    rw [hchildren, dropEmpty_cons _ rfl, dropEmpty_cons _ hno]
  · refine ⟨rest, ?_, hchildren⟩
    rw [Option.getD_none, hchildren, List.filter_cons, List.filter_cons, hno] at hreled
    cases hreled with
    | cons _ hreled =>
        cases hreled with
        | cons _ hreled => exact hreled

theorem withoutConstantsTerminator_eq :
    withoutConstantsTerminator n =
      if rest.any fun e => e.node?.isSome then none
      else (withoutTerminator constants).map fun trimmed =>
        carryAfter (n.withChild 1 (.node trimmed.1)) 1 trimmed.2 := by
  have hposition : n.positionOf? (.java .enumConstants) = some 1 := by
    rw [Node.positionOf?, hchildren]
    simp [List.findIdx?_cons, Element.node?, hconstants]
  rw [withoutConstantsTerminator, hposition, hchildren]
  rfl

theorem reled_withoutConstantsTerminator :
    let trimmed := (withoutConstantsTerminator n).getD n
    trimmed.kind = n.kind ∧ trimmed.markers = n.markers ∧ List.Forall₂ Reled
      (.token opening :: .node (if rest.any fun e => e.node?.isSome then constants
        else unterminated constants) :: rest) trimmed.children := by
  have hsame : ∀ es : List Element, List.Forall₂ Reled es es :=
    fun es => List.forall₂_same.2 fun e _ => reled_refl e
  rw [withoutConstantsTerminator_eq hconstants hchildren]
  cases hany : rest.any fun e => e.node?.isSome with
  | true =>
      refine ⟨rfl, rfl, ?_⟩
      rw [if_pos rfl, if_pos rfl, Option.getD_none, hchildren]
      exact hsame _
  | false =>
      rw [if_neg (by decide), if_neg (by decide), unterminated]
      cases hterminator : withoutTerminator constants with
      | none =>
          refine ⟨rfl, rfl, ?_⟩
          rw [Option.map_none, Option.map_none, Option.getD_none, Option.getD_none, hchildren]
          exact hsame _
      | some trimmed =>
          obtain ⟨trimmed, removed⟩ := trimmed
          obtain ⟨hkind, hmarkers, hreled⟩ :=
            reled_carryAfter (n.withChild 1 (.node trimmed)) 1 removed
          refine ⟨hkind, hmarkers, ?_⟩
          have hset : (n.withChild 1 (.node trimmed)).children =
              .token opening :: .node trimmed :: rest := by
            show n.children.set 1 _ = _
            rw [hchildren]
            rfl
          rw [hset] at hreled
          exact hreled

end

theorem trims_enumBody (hkind : n.kind = .java .enumBody)
    (hshape : KindShape .enumBody n.children) (h : List.Forall₂ TrimsChild n.children es') :
    Trims n ((trimEnumBody { n with children := es' }).getD { n with children := es' }) := by
  obtain ⟨constants, items, hconstants, hitems, henclosed⟩ := hshape
  obtain ⟨close, hclose, hchildren⟩ := enclosed_items henclosed
  obtain ⟨v, hv⟩ : ∃ v : Node, v = { n with children := es' } := ⟨_, rfl⟩
  have hvkind : v.kind = n.kind := by rw [hv]
  have hvmarkers : v.markers = n.markers := by rw [hv]
  have hvchildren : v.children = es' := by rw [hv]
  rw [← hv, trimEnumBody_getD]
  clear hv
  rw [hchildren, List.map_cons, List.cons_append] at h
  obtain ⟨constants', rest', hfirst, hrest, rfl⟩ : ∃ constants' rest', Trims constants constants' ∧
      List.Forall₂ TrimsChild (items.map .node ++ [.token close]) rest' ∧
        es' = .token ⟨.punct, "", "\x7b"⟩ :: .node constants' :: rest' := by
    cases h with
    | cons hopening h =>
        cases hopening
        cases h with
        | cons hfirst hrest =>
            cases hfirst with
            | node hfirst => exact ⟨_, _, hfirst, hrest, rfl⟩
  have hconstants' : constants'.kind = .java .enumConstants := hfirst.kind.trans hconstants
  obtain ⟨rest'', hreled, hcleared⟩ := children_withoutEmpty hconstants' hvchildren
  obtain ⟨hkind', hmarkers', hreled'⟩ := reled_withoutConstantsTerminator hconstants' hcleared
  refine ⟨hkind'.trans ((kind_withoutEmpty v).trans hvkind),
    hmarkers'.trans ((markers_withoutEmpty v).trans hvmarkers), ?_, fun hother => ?_⟩
  · have hmembers : (rest''.any fun e => e.node?.isSome) =
        holdsMember (items.map .node ++ [.token close]) := by
      rw [any_node_reled hreled, List.any_filter, ← holdsMember_trims hrest, holdsMember]
      congr 1
      funext e
      exact Bool.and_comm _ _
    have hwords : (Element.node (if rest''.any fun e => e.node?.isSome then constants'
        else unterminated constants')).words =
          kept (judge (!holdsMember (items.map .node ++ [.token close])) constants) := by
      rw [hmembers]
      cases holdsMember (items.map .node ++ [.token close]) with
      | true => exact hfirst.words
      | false => exact hfirst.constants hconstants
    have hrestWords := @words_filter_trims (.java .enumBody) false _ _ rfl (fun _ c hc => ?_) hrest
    · rw [words_node, hkind', kind_withoutEmpty, hvkind, hkind, wordsIn_reled _ hreled', judge_eq,
        hchildren, hkind]
      show Node.wordsIn .sequence _ = _
      rw [wordsIn_cons, wordsIn_cons, hwords, wordsIn_reled _ hreled, hrestWords]
      rw [List.map_cons, List.cons_append, judgeIn, judgeIn, judgeChild, judgeChild]
      simp [kept, Layout.delimiterTokens, Tree.Kind.layout, isTerminator, Element.words,
        Element.lexemes, hconstants]
    · rcases List.mem_append.1 hc with hc | hc
      · obtain ⟨item, hitem, heq⟩ := List.mem_map.1 hc
        cases heq
        exact hitems _ hitem
      · simp at hc
  · rw [hkind] at hother
    cases hother

theorem trims_other (hbody : isBodyKind n.kind = false) (hresources : n.kind ≠ .java .tryResources)
    (hn : Formed n) (h : List.Forall₂ TrimsChild n.children es') :
    Trims n { n with children := es' } where
  kind := rfl
  markers := rfl
  words := by
    rw [words_node, judge_eq]
    exact words_trims hbody (isTerminator_of_ne hresources fun _ => rfl) h
  constants hconstants := words_unterminated hconstants (hn _ hconstants) h

theorem trims_leave (hn : Formed n) (h : List.Forall₂ TrimsChild n.children es') (cursor : Cursor) :
    Trims n ((visitor.leave { n with children := es' } cursor ()).1.getD
      { n with children := es' }) := by
  have hleave : ∀ {kind : Java.Kind}, n.kind = .java kind → kind.isVisited = true →
      (visitor.leave { n with children := es' } cursor ()).1 =
        trim kind { n with children := es' } := by
    intro kind hkind hvisited
    simp only [visitor, Hooks.visitor, hkind, hvisited, if_true]
  by_cases hblock : n.kind = .java .block
  · rw [hleave hblock rfl]
    exact trims_body (.inl hblock) h
  by_cases hclass : n.kind = .java .classBody
  · rw [hleave hclass rfl]
    exact trims_body (.inr hclass) h
  by_cases henum : n.kind = .java .enumBody
  · rw [hleave henum rfl]
    exact trims_enumBody henum (hn _ henum) h
  by_cases hresources : n.kind = .java .tryResources
  · rw [hleave hresources rfl]
    exact trims_resources hresources (hn _ hresources) h
  have hstays : (visitor.leave { n with children := es' } cursor ()).1 = none := by
    simp only [visitor, Hooks.visitor]
    split
    · rename_i kind hkind
      split_ifs
      · cases kind <;> first | rfl | contradiction
      · rfl
    · rfl
  rw [hstays]
  refine trims_other ?_ hresources hn h
  simp [isBodyKind, hblock, hclass, henum]

end

theorem trims_of_swept {es es' : List Element} {s s' : Unit} {changed : Bool}
    (h : Swept (fun n _ n' _ _ => n.Everywhere Formed → Trims n n') es s es' changed s')
    (hes : ∀ c, Element.node c ∈ es → c.Everywhere Formed) : List.Forall₂ TrimsChild es es' := by
  induction h with
  | nil => exact .nil
  | token _ ih => exact .cons (.token _) (ih fun c hc => hes c (List.mem_cons_of_mem _ hc))
  | node hn _ ih =>
      exact .cons (.node (hn (hes _ List.mem_cons_self)))
        (ih fun c hc => hes c (List.mem_cons_of_mem _ hc))

theorem leaves_trims :
    visitor.Leaves fun n _ n' _ _ => n.Everywhere Formed → Trims n n' := by
  intro n cursor s s' es' changed hswept v left hformed
  obtain ⟨hn, hchildren⟩ := everywhere_iff.1 hformed
  exact trims_leave hn (trims_of_swept hswept hchildren) cursor

/-! ### Units -/

/-- The unit behind one application of the recipe. -/
def trimmed (unit : Node) : Node :=
  (Recipe.passOf visitor () unit).getD unit

theorem words_judge (ends : Bool) (n : Node) : (judge ends n).map Prod.fst = n.words := by
  induction n using Node.induction_on generalizing ends with
  | step n ih =>
      rw [judge_eq, words_node]
      generalize n.children = es at ih
      induction es with
      | nil => rfl
      | cons e es ihes =>
          rw [judgeIn, wordsIn_cons, List.map_append, List.map_append,
            ihes fun c hc => ih c (List.mem_cons_of_mem _ hc)]
          congr 2
          · cases e with
            | token t => rfl
            | node c =>
                rw [judgeChild]
                split_ifs
                · rw [List.map_map]
                  exact List.map_id _
                · exact ih c List.mem_cons_self _
          · rw [List.map_map]
            rfl

theorem kind_of_delimiter {layout : Layout} {e : Element} {es : List Element} {t : Token}
    (h : t ∈ layout.delimiterTokens e es) : t.kind = .punct := by
  have hmarked : ∀ {markers : Markers} {delimiter : Delimiter},
      t ∈ markedTokens markers delimiter → t.kind = .punct := by
    intro markers delimiter h
    rw [markedTokens, Option.mem_toList, Option.map_eq_some_iff] at h
    obtain ⟨marker, _, rfl⟩ := h
    rfl
  cases layout with
  | sequence => cases h
  | separated separator closer =>
      cases e with
      | token t => cases h
      | node n =>
          rw [Layout.delimiterTokens] at h
          split_ifs at h
          · rw [List.mem_singleton.1 h, separatorToken]
            split <;> rfl
          · rcases List.mem_append.1 h with h | h
            · exact hmarked h
            · cases closer with
              | none => cases h
              | some closer => exact hmarked h

theorem kind_of_terminator {n : Node} {ends : Bool} {t : Token} (hn : Formed n)
    (ht : Element.token t ∈ n.children) (h : isTerminator n.kind ends t = true) :
    t.kind = .punct := by
  simp only [isTerminator, Bool.and_eq_true, Bool.or_eq_true, beq_iff_eq] at h
  rcases h.2 with hkind | ⟨hkind, _⟩
  · obtain ⟨items, _, lead, hchildren⟩ := hn _ hkind
    rw [hchildren] at ht
    rcases List.mem_cons.1 ht with ht | ht
    · cases ht
      rfl
    · rcases List.mem_append.1 ht with ht | ht
      · simp at ht
      · cases List.mem_singleton.1 ht
        rfl
  · rcases hn _ hkind with hchildren | ⟨items, _, hchildren⟩
    · rw [hchildren] at ht
      cases List.mem_singleton.1 ht
      rfl
    · rw [hchildren] at ht
      simp at ht

theorem needless_semicolon {n : Node} (h : n.Everywhere Formed) {ends : Bool} {w : Word}
    (hw : (w, true) ∈ judge ends n) : w = (.punct, ";") := by
  induction n using Node.induction_on generalizing ends with
  | step n ih =>
      obtain ⟨hn, hchildren⟩ := everywhere_iff.1 h
      rw [judge_eq] at hw
      have hterminator : ∀ {t : Token}, t.kind = .punct → isTerminator n.kind ends t = true →
          t.word = (.punct, ";") := by
        intro t hkind hyes
        simp only [isTerminator, Bool.and_eq_true, beq_iff_eq] at hyes
        rw [Token.word, hkind, hyes.1]
      have htokens : ∀ t, Element.token t ∈ n.children → isTerminator n.kind ends t = true →
          t.kind = .punct := fun t ht => kind_of_terminator hn ht
      generalize n.children = es at hw ih hchildren htokens
      induction es with
      | nil => cases hw
      | cons e es ihes =>
          rw [judgeIn] at hw
          rcases List.mem_append.1 hw with hw | hw
          · rcases List.mem_append.1 hw with hw | hw
            · cases e with
              | token t =>
                  obtain ⟨rfl, hyes⟩ := Prod.mk.inj (List.mem_singleton.1 hw)
                  exact hterminator (htokens t List.mem_cons_self hyes.symm) hyes.symm
              | node c =>
                  have hc := hchildren c List.mem_cons_self
                  rw [judgeChild] at hw
                  split_ifs at hw with hempty
                  · simp only [Bool.and_eq_true, beq_iff_eq] at hempty
                    obtain ⟨v, hv, hvw⟩ := List.mem_map.1 hw
                    obtain rfl : v = w := congrArg Prod.fst hvw
                    rw [words_node, hempty.2, (everywhere_iff.1 hc).1 _ hempty.2] at hv
                    exact List.mem_singleton.1 hv
                  · exact ih c List.mem_cons_self hc hw
            · obtain ⟨t, ht, htw⟩ := List.mem_map.1 hw
              obtain ⟨rfl, hyes⟩ := Prod.mk.inj htw
              simp only [Bool.and_eq_true] at hyes
              exact hterminator (kind_of_delimiter ht) hyes.2
          · exact ihes hw (fun c hc => ih c (List.mem_cons_of_mem _ hc))
              (fun c hc => hchildren c (List.mem_cons_of_mem _ hc))
              fun t ht => htokens t (List.mem_cons_of_mem _ ht)

theorem words_of_parseUnit {source : String} {unit : Node} (h : parseUnit source = .ok unit) :
    (trimmed unit).words = kept (judge false unit) := by
  have hformed := formed_of_parseUnit h
  obtain ⟨hunit, _⟩ := unit_of_parseUnit h
  have haccepts : visitor.accepts unit = true := by
    simp [visitor, Hooks.visitor, hunit.kind]
  exact (Visitor.walk_sweeps (fun _ _ _ => rfl) leaves_trims haccepts () hformed).words

end Codemod.Recipes.Semicolons
