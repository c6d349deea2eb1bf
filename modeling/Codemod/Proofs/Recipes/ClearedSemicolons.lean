import Codemod.Proofs.Recipes.Settling

/-!
The tree that the recipe for needless semicolons leaves. None of them is in it, and it is the tree
of the source with each body and each list rid of its needless semicolons, node for node: only
trivia differs.
-/

namespace Codemod.Tree

mutual

/-- The node without trivia in front of it and of what is below it. -/
def Node.bare : Node → Node
  | ⟨kind, _, children, markers, type?⟩ =>
      { kind, lead := "", children := Node.bareList children, markers, type? }

/-- The child without trivia. -/
def Element.bare : Element → Element
  | .node n => .node n.bare
  | .token t => .token { t with lead := "" }

/-- The children without trivia. -/
def Node.bareList : List Element → List Element
  | [] => []
  | e :: es => e.bare :: Node.bareList es

end

theorem bareList_eq_map (es : List Element) : Node.bareList es = es.map Element.bare := by
  induction es with
  | nil => rfl
  | cons e es ih => rw [Node.bareList, List.map_cons, ih]

theorem bare_eq (n : Node) :
    n.bare = { n with lead := "", children := n.children.map Element.bare } := by
  obtain ⟨kind, lead, children, markers, type?⟩ := n
  rw [Node.bare, bareList_eq_map]

theorem kind_bare (n : Node) : n.bare.kind = n.kind := by
  rw [bare_eq]

theorem bare_reled {e e' : Element} (h : Reled e e') : e'.bare = e.bare := by
  obtain ⟨lead, rfl⟩ := h
  cases e with
  | token t => rfl
  | node n =>
      show Element.node (Node.bare _) = .node n.bare
      rw [bare_eq, bare_eq]

theorem bare_releds {es es' : List Element} (h : List.Forall₂ Reled es es') :
    es'.map Element.bare = es.map Element.bare := by
  induction h with
  | nil => rfl
  | cons h _ ih => rw [List.map_cons, List.map_cons, bare_reled h, ih]

end Codemod.Tree

namespace Codemod.Recipes.Semicolons

open Codemod.Tree Codemod.Java

/-! ### Trees without needless semicolons -/

/-- The child is not a node of this kind. -/
def isOther (kind : Java.Kind) (e : Element) : Bool :=
  !e.node?.any fun n => n.kind == .java kind

/-- The node does not end in a semicolon: its last child neither carries one nor is one. -/
def Open (constants : Node) : Prop :=
  (∀ last, constants.children.getLast? = some (.node last) →
      last.markers.get? .semicolon = none) ∧
    ∀ t, constants.children.getLast? = some (.token t) → t.text ≠ ";"

/-- No semicolon of the node is needless: no member of a body is empty, constants that no other
member stands beside do not end in a semicolon, and none stands behind the last resource. -/
structure Clear (n : Node) : Prop where
  members : n.kind ∈ [.java .block, .java .classBody, .java .enumBody] →
    ∀ c, Element.node c ∈ n.children → c.kind ≠ .java .empty
  constants : n.kind = .java .enumBody → ∀ constants, n.childNodes = [constants] →
    constants.kind = .java .enumConstants → Open constants
  resources : n.kind = .java .tryResources → ∀ front last behind,
    n.children = front ++ .node last :: behind → last.kind = .java .resource →
      behind.all (isOther .resource) = true → last.markers.get? .semicolon = none

/-! ### What stays -/

/-- The last of some items without its semicolon, be it a marker of the item or the item. -/
def openedLast : Element → List Element
  | .node n => [.node (unmarked n .semicolon)]
  | .token t => if t.text = ";" then [] else [.token t]

/-- Some items without a semicolon at their end. -/
def opened : List Element → List Element
  | [] => []
  | e :: es => if es.isEmpty then openedLast e else e :: opened es

/-- The node with its children opened, if it is the list of constants. -/
def openedConstants : Element → Element
  | .token t => .token t
  | .node n =>
      if n.kind = .java .enumConstants then .node { n with children := opened n.children }
      else .node n

/-- The members of an enumeration; its constants are opened if they stand alone. -/
def openedMembers (es : List Element) : List Element :=
  if es.all fun e => e.node?.all fun n => n.kind == .java .enumConstants then es.map openedConstants
  else es

/-- Some resources without the semicolon behind the last of them. -/
def openedResources : List Element → List Element
  | [] => []
  | .token t :: es => .token t :: openedResources es
  | .node n :: es =>
      if n.kind = .java .resource ∧ es.all (isOther .resource) then
        .node (unmarked n .semicolon) :: es
      else .node n :: openedResources es

/-- The children of a node of the kind without the needless semicolons among them. -/
def clearedChildren : Tree.Kind → List Element → List Element
  | .java .block, es | .java .classBody, es => es.filter (isOther .empty)
  | .java .enumBody, es => openedMembers (es.filter (isOther .empty))
  | .java .tryResources, es => openedResources es
  | _, es => es

mutual

/-- The node without the needless semicolons below it. -/
def cleared : Node → Node
  | ⟨kind, lead, children, markers, type?⟩ =>
      { kind, lead, children := clearedChildren kind (clearedList children), markers, type? }

/-- The child without the needless semicolons below it. -/
def clearedElement : Element → Element
  | .node n => .node (cleared n)
  | .token t => .token t

/-- The children, each without the needless semicolons below it. -/
def clearedList : List Element → List Element
  | [] => []
  | e :: es => clearedElement e :: clearedList es

end

theorem cleared_eq (n : Node) :
    cleared n =
      { n with children := clearedChildren n.kind (n.children.map clearedElement) } := by
  have hlist : ∀ es, clearedList es = es.map clearedElement := by
    intro es
    induction es with
    | nil => rfl
    | cons e es ih => rw [clearedList, List.map_cons, ih]
  obtain ⟨kind, lead, children, markers, type?⟩ := n
  rw [cleared, hlist]

/-! ### Trivia is of no matter -/

theorem isOther_bare (kind : Java.Kind) (e : Element) : isOther kind e.bare = isOther kind e := by
  cases e with
  | token t => rfl
  | node n => simp [isOther, Element.bare, Element.node?, kind_bare]

theorem all_isOther_bare (kind : Java.Kind) (es : List Element) :
    (es.map Element.bare).all (isOther kind) = es.all (isOther kind) := by
  rw [List.all_map]
  congr 1
  exact funext (isOther_bare kind)

theorem filter_bare (kind : Java.Kind) (es : List Element) :
    (es.filter (isOther kind)).map Element.bare = (es.map Element.bare).filter (isOther kind) := by
  rw [List.filter_map]
  congr 2
  exact funext fun e => (isOther_bare kind e).symm

theorem bare_unmarked (n : Node) (kind : MarkerKind) :
    (unmarked n kind).bare = unmarked n.bare kind := by
  rw [unmarked, unmarked, bare_eq, bare_eq]

theorem openedLast_bare (e : Element) :
    (openedLast e).map Element.bare = openedLast e.bare := by
  cases e with
  | token t =>
      rw [Element.bare, openedLast, openedLast]
      split_ifs <;> rfl
  | node n =>
      show [Element.node (unmarked n .semicolon).bare] = _
      rw [bare_unmarked]
      rfl

theorem opened_bare (es : List Element) :
    (opened es).map Element.bare = opened (es.map Element.bare) := by
  induction es with
  | nil => rfl
  | cons e es ih =>
      rw [List.map_cons, opened, opened, List.isEmpty_map]
      split_ifs
      · exact openedLast_bare e
      · rw [List.map_cons, ih]

theorem openedConstants_bare (e : Element) :
    (openedConstants e).bare = openedConstants e.bare := by
  cases e with
  | token t => rfl
  | node n =>
      rw [Element.bare, openedConstants, openedConstants, kind_bare]
      split_ifs
      · show Element.node (Node.bare _) = _
        rw [bare_eq, bare_eq, opened_bare]
      · rfl

theorem openedMembers_bare (es : List Element) :
    (openedMembers es).map Element.bare = openedMembers (es.map Element.bare) := by
  have hall : ((es.map Element.bare).all fun e => e.node?.all fun n => n.kind == .java .enumConstants)
      = es.all fun e => e.node?.all fun n => n.kind == .java .enumConstants := by
    rw [List.all_map]
    congr 1
    funext e
    cases e with
    | token t => rfl
    | node n => simp [Element.bare, Element.node?, kind_bare]
  rw [openedMembers, openedMembers, hall]
  split_ifs
  · rw [List.map_map, List.map_map]
    exact List.map_congr_left fun e _ => openedConstants_bare e
  · rfl

theorem openedResources_bare (es : List Element) :
    (openedResources es).map Element.bare = openedResources (es.map Element.bare) := by
  induction es with
  | nil => rfl
  | cons e es ih =>
      cases e with
      | token t =>
          show Element.token _ :: (openedResources es).map Element.bare = _
          rw [ih]
          rfl
      | node n =>
          rw [List.map_cons, Element.bare, openedResources, openedResources, kind_bare,
            all_isOther_bare]
          split_ifs
          · show Element.node (unmarked n .semicolon).bare :: _ = _
            rw [bare_unmarked]
          · show Element.node n.bare :: (openedResources es).map Element.bare = _
            rw [ih]

theorem clearedChildren_bare (kind : Tree.Kind) (es : List Element) :
    (clearedChildren kind es).map Element.bare = clearedChildren kind (es.map Element.bare) := by
  cases kind with
  | yaml kind => rfl
  | java kind =>
      cases kind with
      | block => exact filter_bare .empty es
      | classBody => exact filter_bare .empty es
      | enumBody =>
          exact (openedMembers_bare _).trans (congrArg openedMembers (filter_bare .empty es))
      | tryResources => exact openedResources_bare es
      | _ => rfl

/-! ### What a step makes of a node -/

theorem bare_congr {n n' : Node} (hkind : n'.kind = n.kind) (hmarkers : n'.markers = n.markers)
    (htype : n'.type? = n.type?)
    (hchildren : n'.children.map Element.bare = n.children.map Element.bare) : n'.bare = n.bare := by
  rw [bare_eq, bare_eq, hkind, hmarkers, htype, hchildren]

theorem type_carryAfter (n : Node) (index : Nat) (removed : String) :
    (carryAfter n index removed).type? = n.type? := by
  rw [carryAfter]
  split
  · split_ifs <;> rfl
  · rfl

theorem bare_carryAfter (n : Node) (index : Nat) (removed : String) :
    (carryAfter n index removed).bare = n.bare := by
  obtain ⟨hkind, hmarkers, hreled⟩ := reled_carryAfter n index removed
  exact bare_congr hkind hmarkers (type_carryAfter n index removed) (bare_releds hreled)

theorem bare_withoutEmpty (n : Node) :
    ((withoutEmpty n).getD n).bare =
      ({ n with children := n.children.filter (isOther .empty) } : Node).bare := by
  refine bare_congr (kind_withoutEmpty n) (markers_withoutEmpty n) ?_
    (bare_releds (reled_withoutEmpty n))
  rw [withoutEmpty]
  split_ifs <;> rfl

theorem opened_concat (front : List Element) (last : Element) :
    opened (front ++ [last]) = front ++ openedLast last := by
  induction front with
  | nil => simp [opened]
  | cons e front ih => simp [opened, ih]

theorem unmarked_eq_self {n : Node} {kind : MarkerKind} (h : n.markers.get? kind = none) :
    unmarked n kind = n := by
  rw [unmarked, erase_of_get h]
  cases n
  rfl

theorem bare_unterminated (constants : Node) :
    (unterminated constants).bare =
      ({ constants with children := opened constants.children } : Node).bare := by
  obtain ⟨kind, lead, children, markers, type?⟩ := constants
  obtain rfl | ⟨front, last, rfl⟩ := List.eq_nil_or_concat children
  · rfl
  rw [List.concat_eq_append, unterminated, withoutTerminator, opened_concat]
  simp only [List.getLast?_concat, List.dropLast_concat]
  cases last with
  | token t =>
      simp only [openedLast]
      split_ifs
      · rw [List.append_nil]
        rfl
      · rfl
  | node n =>
      simp only [openedLast]
      cases hmarker : n.markers.get? .semicolon with
      | some terminator => rfl
      | none =>
          rw [unmarked_eq_self hmarker]
          rfl

/-- The constants stand in front of the members. -/
def ConstantsFirst (es : List Element) : Prop :=
  ∃ rest, kinds es = none :: some (.java .enumConstants) :: rest ∧
    some (.java .enumConstants) ∉ rest

theorem ConstantsFirst.children {es : List Element} (h : ConstantsFirst es) :
    ∃ opening constants rest, es = .token opening :: .node constants :: rest ∧
      constants.kind = .java .enumConstants ∧
        ∀ n, Element.node n ∈ rest → n.kind ≠ .java .enumConstants := by
  obtain ⟨rest, hkinds, hrest⟩ := h
  obtain ⟨e, es, rfl, he, hes⟩ := List.map_eq_cons_iff.1 hkinds
  obtain ⟨e', es, rfl, he', rfl⟩ := List.map_eq_cons_iff.1 hes
  cases e with
  | node n => cases he
  | token opening =>
      cases e' with
      | token t => cases he'
      | node constants =>
          refine ⟨opening, constants, es, rfl, Option.some.inj he', fun n hn hkind => hrest ?_⟩
          exact List.mem_map.2 ⟨_, hn, congrArg some hkind⟩

theorem openedMembers_constants {opening : Token} {constants : Node} {rest : List Element}
    (hconstants : constants.kind = .java .enumConstants)
    (hrest : ∀ n, Element.node n ∈ rest → n.kind ≠ .java .enumConstants) :
    openedMembers (.token opening :: .node constants :: rest) =
      .token opening :: .node (if rest.any fun e => e.node?.isSome then constants
        else { constants with children := opened constants.children }) :: rest := by
  have hall : ((.token opening :: .node constants :: rest).all fun e =>
      e.node?.all fun n => n.kind == .java .enumConstants) =
        !rest.any fun e => e.node?.isSome := by
    rw [List.all_cons, List.all_cons, List.not_any_eq_all_not]
    simp only [Element.node?, Option.all_none, Option.all_some, hconstants, BEq.rfl, Bool.true_and]
    rw [Bool.eq_iff_iff, List.all_eq_true, List.all_eq_true]
    refine forall₂_congr fun e he => ?_
    cases e with
    | token t => simp
    | node n => simp [hrest n he]
  rw [openedMembers, hall]
  cases hany : rest.any fun e => e.node?.isSome with
  | true => simp
  | false =>
      have htokens : rest.map openedConstants = rest := by
        refine (List.map_congr_left fun e he => ?_).trans (List.map_id rest)
        have hno := List.any_eq_false.1 hany e he
        cases e with
        | token t => rfl
        | node n => exact absurd rfl hno
      simp [openedConstants, hconstants, htokens]

theorem type_trimEnumBody (n : Node) : ((trimEnumBody n).getD n).type? = n.type? := by
  have hempty : ((withoutEmpty n).getD n).type? = n.type? := by
    rw [withoutEmpty]
    split_ifs <;> rfl
  rw [trimEnumBody_getD, ← hempty]
  generalize (withoutEmpty n).getD n = w
  cases hstep : withoutConstantsTerminator w with
  | none => rfl
  | some r =>
      obtain ⟨index, constants, trimmed, removed, -, -, -, rfl⟩ :=
        withoutConstantsTerminator_eq_some hstep
      exact type_carryAfter _ _ _

theorem bare_trimEnumBody {n : Node} (h : ConstantsFirst n.children) :
    ((trimEnumBody n).getD n).bare =
      ({ n with children := openedMembers (n.children.filter (isOther .empty)) } : Node).bare := by
  obtain ⟨opening, constants, rest, hchildren, hconstants, hrest⟩ := h.children
  obtain ⟨rest', hreled, hw⟩ := children_withoutEmpty hconstants hchildren
  obtain ⟨hkind, hmarkers, htrimmed⟩ := reled_withoutConstantsTerminator hconstants hw
  have hmembers : n.children.filter (isOther .empty) =
      .token opening :: .node constants :: rest.filter (isOther .empty) := by
    rw [hchildren, List.filter_cons, List.filter_cons]
    simp [isOther, Element.node?, hconstants]
  have hsame : List.Forall₂ Reled (rest.filter (isOther .empty)) rest' := hreled
  have hothers : ∀ m, Element.node m ∈ rest.filter (isOther .empty) →
      m.kind ≠ .java .enumConstants := fun m hm => hrest m (List.mem_filter.1 hm).1
  have htype := type_trimEnumBody n
  rw [trimEnumBody_getD] at htype ⊢
  refine bare_congr (hkind.trans (kind_withoutEmpty n)) (hmarkers.trans (markers_withoutEmpty n))
    htype ?_
  rw [hmembers, openedMembers_constants hconstants hothers, bare_releds htrimmed]
  simp only [List.map_cons, bare_releds hsame, any_node_reled hsame]
  congr 2
  show Element.node (Node.bare _) = .node (Node.bare _)
  split_ifs
  · rfl
  · rw [bare_unterminated]

theorem lastResource_eq_none {es : List Element} (h : es.all (isOther .resource) = true) :
    lastResource? es = none := by
  induction es with
  | nil => rfl
  | cons e es ih =>
      rw [List.all_cons, Bool.and_eq_true] at h
      have he : (e.node?.any fun n => n.kind == .java .resource) = false := by
        simpa [isOther] using h.1
      have hes := ih h.2
      rw [lastResource?] at hes ⊢
      rw [lastIndex?, hes]
      simp [he]

theorem openedResources_eq_self {es : List Element} (h : es.all (isOther .resource) = true) :
    openedResources es = es := by
  induction es with
  | nil => rfl
  | cons e es ih =>
      rw [List.all_cons, Bool.and_eq_true] at h
      cases e with
      | token t => rw [openedResources, ih h.2]
      | node n =>
          have hkind : n.kind ≠ .java .resource := by simpa [isOther, Element.node?] using h.1
          rw [openedResources, if_neg fun h => hkind h.1, ih h.2]

theorem resources_cases (es : List Element) :
    es.all (isOther .resource) = true ∨ ∃ front last behind, es = front ++ .node last :: behind ∧
      last.kind = .java .resource ∧ behind.all (isOther .resource) = true := by
  induction es with
  | nil => exact .inl rfl
  | cons e es ih =>
      rcases ih with hnone | ⟨front, last, behind, rfl, hlast, hbehind⟩
      · cases e with
        | token t => exact .inl hnone
        | node n =>
            by_cases hkind : n.kind = .java .resource
            · exact .inr ⟨[], n, es, rfl, hkind, hnone⟩
            · exact .inl (by simp [isOther, Element.node?, hkind, hnone])
      · exact .inr ⟨e :: front, last, behind, rfl, hlast, hbehind⟩

section
variable {front behind : List Element} {last : Node} (hlast : last.kind = .java .resource)
  (hbehind : behind.all (isOther .resource) = true)
include hlast hbehind

theorem openedResources_append :
    openedResources (front ++ .node last :: behind) =
      front ++ .node (unmarked last .semicolon) :: behind := by
  induction front with
  | nil => rw [List.nil_append, openedResources, if_pos ⟨hlast, hbehind⟩, List.nil_append]
  | cons e front ih =>
      rw [List.cons_append, List.cons_append]
      cases e with
      | token t => rw [openedResources, ih]
      | node n =>
          have hmore : ¬(front ++ .node last :: behind).all (isOther .resource) = true := by
            simp [isOther, Element.node?, hlast]
          rw [openedResources, if_neg fun h => hmore h.2, ih]

theorem lastResource_append :
    lastResource? (front ++ .node last :: behind) = some front.length := by
  refine lastIndex_append front behind (by simp [Element.node?, hlast]) fun e he => ?_
  simpa [isOther] using List.all_eq_true.1 hbehind e he

end

theorem bare_withoutResourceTerminator (n : Node) :
    ((withoutResourceTerminator n).getD n).bare =
      ({ n with children := openedResources n.children } : Node).bare := by
  obtain ⟨kind, lead, children, markers, type?⟩ := n
  rcases resources_cases children with hnone | ⟨front, last, behind, rfl, hlast, hbehind⟩
  · simp [withoutResourceTerminator, lastResource_eq_none hnone, openedResources_eq_self hnone]
  have hat : (front ++ Element.node last :: behind)[front.length]? = some (.node last) := by simp
  simp only [withoutResourceTerminator, lastResource_append hlast hbehind, hat,
    openedResources_append hlast hbehind, Option.bind_eq_bind, Option.bind_some, Element.node?]
  cases hmarker : last.markers.get? .semicolon with
  | none =>
      rw [unmarked_eq_self hmarker]
      rfl
  | some terminator =>
      rw [Option.bind_some, Option.getD_some, bare_carryAfter]
      simp [Node.withChild]

theorem bare_trim {n : Node} {kind : Java.Kind} (hkind : n.kind = .java kind)
    (hfirst : kind = .enumBody → ConstantsFirst n.children) :
    ((trim kind n).getD n).bare =
      ({ n with children := clearedChildren n.kind n.children } : Node).bare := by
  have hchildren : clearedChildren n.kind n.children = clearedChildren (.java kind) n.children := by
    rw [hkind]
  rw [hchildren]
  cases kind with
  | block => exact bare_withoutEmpty n
  | classBody => exact bare_withoutEmpty n
  | enumBody => exact bare_trimEnumBody (hfirst rfl)
  | tryResources => exact bare_withoutResourceTerminator n
  | _ => cases n; rfl

/-! ### The walk -/

/-- In the body of an enumeration, the constants stand in front of the members. -/
def BodyShaped (n : Node) : Prop :=
  n.kind = .java .enumBody → ConstantsFirst n.children

/-- What stands in place of a node is the node without needless semicolons, but for trivia. -/
def Clears : VisitRelation Unit :=
  fun n _ n' _ _ => n.Everywhere BodyShaped → n'.bare = (cleared n).bare

theorem bare_of_swept {es es' : List Element} {s s' : Unit} {changed : Bool}
    (h : Swept Clears es s es' changed s')
    (hes : ∀ c, Element.node c ∈ es → c.Everywhere BodyShaped) :
    es'.map Element.bare = (es.map clearedElement).map Element.bare := by
  induction h with
  | nil => rfl
  | token _ ih =>
      rw [List.map_cons, ih fun c hc => hes c (List.mem_cons_of_mem _ hc)]
      rfl
  | node hn _ ih =>
      rw [List.map_cons, ih fun c hc => hes c (List.mem_cons_of_mem _ hc), Element.bare,
        hn (hes _ List.mem_cons_self)]
      rfl

theorem kinds_bare (es : List Element) : kinds (es.map Element.bare) = kinds es := by
  rw [kinds, kinds, List.map_map]
  refine List.map_congr_left fun e _ => ?_
  cases e with
  | token t => rfl
  | node n => exact congrArg some (kind_bare n)

theorem kinds_cleared (es : List Element) : kinds (es.map clearedElement) = kinds es := by
  rw [kinds, kinds, List.map_map]
  refine List.map_congr_left fun e _ => ?_
  cases e with
  | token t => rfl
  | node n => exact congrArg some (by rw [cleared_eq])

theorem leaves_clears : visitor.Leaves Clears := by
  intro n cursor s s' es' changed hswept v left hn
  obtain ⟨hshaped, hbelow⟩ := everywhere_iff.1 hn
  have hbare := bare_of_swept hswept hbelow
  have hkinds : kinds v.children = kinds n.children := by
    rw [← kinds_bare, show v.children = es' from rfl, hbare, kinds_bare, kinds_cleared]
  have hv : (left.1.getD v).bare =
      ({ v with children := clearedChildren v.kind v.children } : Node).bare := by
    show ((visitor.leave v cursor ()).1.getD v).bare = _
    cases hkind : v.kind with
    | java kind =>
        rw [leave_java hkind, ← hkind]
        refine bare_trim hkind fun henum => ?_
        rw [ConstantsFirst, hkinds]
        exact hshaped (hkind.trans (congrArg _ henum))
    | yaml kind =>
        have hchildren : clearedChildren v.kind v.children = v.children := by
          rw [hkind]
          rfl
        rw [leave_yaml hkind, ← hkind, hchildren]
        rfl
  rw [hv, cleared_eq]
  refine bare_congr rfl rfl rfl ?_
  rw [clearedChildren_bare, clearedChildren_bare, ← hbare]

/-! ### Units -/

theorem kinds_untyped (es : List Element) : kinds (Node.untypedList es) = kinds es := by
  rw [untypedList_eq_map, kinds, kinds, List.map_map]
  refine List.map_congr_left fun e _ => ?_
  cases e with
  | token t => rfl
  | node n => exact congrArg some (kind_untyped n)

theorem bodyShaped_of_untyped {n : Node} (h : BodyShaped n.untyped) : BodyShaped n := by
  intro hkind
  have hfirst := h ((kind_untyped n).trans hkind)
  rwa [ConstantsFirst, children_untyped, kinds_untyped] at hfirst

theorem bodyShaped_of_formed {n : Node} (h : Formed n) : BodyShaped n := by
  intro hkind
  obtain ⟨constants, items, hconstants, hitems, lead, hchildren⟩ := h _ hkind
  refine ⟨kinds (items.map .node ++ [.token ⟨.punct, lead, "\x7d"⟩]), ?_, fun hmem => ?_⟩
  · rw [hchildren, ← hconstants]
    rfl
  · obtain ⟨e, he, hkind⟩ := List.mem_map.1 hmem
    rcases List.mem_append.1 he with he | he
    · obtain ⟨item, hitem, rfl⟩ := List.mem_map.1 he
      exact hitems item hitem (Option.some.inj hkind)
    · cases List.mem_singleton.1 he
      cases hkind

theorem open_of_trimmed {n constants : Node} (h : Trimmed n) (hkind : n.kind = .java .enumBody)
    (halone : n.childNodes = [constants]) (hconstants : constants.kind = .java .enumConstants) :
    Open constants := by
  obtain ⟨front, e, behind, hchildren, hfront, he, hbehind⟩ := List.filterMap_eq_cons_iff.1 halone
  rw [List.filterMap_eq_nil_iff] at hbehind
  have hposition : n.positionOf? (.java .enumConstants) = some front.length := by
    have hnone : (front.findIdx? fun e => e.node?.any fun c => c.kind == .java .enumConstants) = none :=
      List.findIdx?_eq_none_iff.2 fun e he => by rw [hfront e he]; rfl
    rw [Node.positionOf?, hchildren, List.findIdx?_append, hnone, List.findIdx?_cons, he]
    simp [hconstants]
  have hat : n.children[front.length]? = some (.node constants) := by
    cases e with
    | token t => cases he
    | node c =>
        cases he
        simp [hchildren]
  have hnone := h.terminator hkind hposition hat (by simpa [hchildren] using hbehind)
  rw [withoutTerminator] at hnone
  refine ⟨fun last hlast => ?_, fun t hlast htext => ?_⟩
  · simpa [hlast] using hnone
  · simp [hlast, htext] at hnone

theorem clear_of_trimmed {n : Node} (h : Trimmed n) : Clear n where
  members hbody c hc hempty := by
    have hno := h.members (by simpa [isBodyKind, or_assoc] using hbody) _ hc
    simp [isEmpty, Element.node?, hempty] at hno
  constants hkind _ halone hconstants := open_of_trimmed h hkind halone hconstants
  resources hkind front last behind hchildren hlast hbehind := by
    have hat : lastResource? n.children = some front.length := by
      rw [hchildren]
      exact lastResource_append hlast hbehind
    exact h.resources hkind hat (by simp [hchildren])

/-- The recipe clears the tree of a parsed unit, attributed or not: no needless semicolon is left in
it, and but for trivia it is that tree, node for node, without them. -/
theorem trimmed_clear {source : String} {unit root : Node} (h : parseUnit source = .ok unit)
    (hroot : root.untyped = unit) :
    (trimmed root).Everywhere Clear ∧ (trimmed root).bare = (cleared root).bare := by
  have hformed : ∀ m ∈ root.preorder, Formed m.untyped := fun m hm =>
    formed_of_parseUnit h _ (hroot ▸ mem_preorder_untyped hm)
  have haccepts : visitor.accepts root = true := by
    obtain ⟨hunit, _⟩ := unit_of_parseUnit h
    have hkind : root.kind = .java .compilationUnit := by rw [← kind_untyped, hroot, hunit.kind]
    simp [visitor, Hooks.visitor, hkind]
  have hsettled := Visitor.walk_sweeps (fun _ _ _ => rfl) leaves_settles haccepts ()
    fun m hm => constantsShaped_of_untyped (constantsShaped_of_formed (hformed m hm))
  have hcleared := Visitor.walk_sweeps (fun _ _ _ => rfl) leaves_clears haccepts ()
    fun m hm => bodyShaped_of_untyped (bodyShaped_of_formed (hformed m hm))
  exact ⟨hsettled.2.imp fun _ => clear_of_trimmed, hcleared⟩

/-- An empty member hides a terminator next to a comma; in the body of a constant the terminators
stay that members follow, and so does the body of a loop. -/
theorem trimmed_clear_enum :
    let source := "enum E \x7b A \x7b ; void f() \x7b try (r; s ;) \x7b ; while (b) ; \x7d \x7d \x7d, B, ; ; \x7d"
      ++ " enum F \x7b ; int i; ; \x7d ;"
    ∃ unit, parseUnit source = .ok unit ∧ unit.untyped = unit ∧
      (trimmed unit).Everywhere Clear ∧ (trimmed unit).bare = (cleared unit).bare ∧
        (trimmed unit).print =
          "enum E \x7b A \x7b void f() \x7b try (r; s) \x7b while (b) ; \x7d \x7d \x7d, B, \x7d"
            ++ " enum F \x7b ; int i; \x7d ;" := by
  intro source
  have hprint : (parseUnit source).toOption.map (fun unit => (trimmed unit).print) =
      some ("enum E \x7b A \x7b void f() \x7b try (r; s) \x7b while (b) ; \x7d \x7d \x7d, B, \x7d"
        ++ " enum F \x7b ; int i; \x7d ;") := by
    decide +kernel
  cases hunit : parseUnit source with
  | error e =>
      rw [hunit] at hprint
      cases hprint
  | ok unit =>
      rw [hunit] at hprint
      have huntyped := untyped_eq_self (untyped_of_parseUnit hunit)
      obtain ⟨hclear, hbare⟩ := trimmed_clear hunit huntyped
      exact ⟨unit, rfl, huntyped, hclear, hbare, Option.some.inj hprint⟩

end Codemod.Recipes.Semicolons
