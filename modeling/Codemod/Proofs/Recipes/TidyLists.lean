import Codemod.Proofs.Java.EditedLists
import Codemod.Proofs.Recipes.ClearedSemicolons
import Codemod.Proofs.Recipes.MethodRespelling

/-!
Where trivia and markers stand. In the tree of a unit the first child of a node has no trivia in front
of it, and only the items of lists are marked: each but the last with what separates it from the next,
and the last with what ends the list. The passes over Java trees keep to that. A node sees of its
children only their markers and what its first child is, and no step changes more of them than the
markers of the last item of a list, from which it takes a semicolon away.
-/

namespace Codemod.Java

open Codemod.Tree Codemod.Recipes Codemod.Recipes.Semicolons

/-- The markers of the nodes among some children. -/
def marks (es : List Element) : List Markers :=
  (es.filterMap Element.node?).map Node.markers

/-- How the nodes among the children of a node of a kind are marked: those of a list as its items, and
others not at all. -/
structure Marked (kind : Tree.Kind) (marks : List Markers) : Prop where
  sequence : kind.layout = .sequence → ∀ markers ∈ marks, markers = []
  spaced : kind.layout ≠ .sequence → ∀ markers ∈ marks.dropLast,
    ∃ before, markers = [⟨.separator, before⟩]
  last : kind.layout ≠ .sequence → ∀ markers ∈ marks.getLast?,
    markers.has .separator = false ∧
      (markers.has .comma = true → ∃ closer, kind.layout = .separated .comma closer) ∧
      (markers.has .semicolon = true → kind = .java .enumConstants ∨ kind = .java .tryResources)

/-- The trivia of the first child stands in front of the node, and nodes are marked as items of
lists. -/
structure Tidy (n : Node) : Prop where
  first : ∀ e ∈ n.children.head?, e.lead = ""
  marked : Marked n.kind (marks n.children)

/-- What passes keep: a body whose empty members are taken away starts with a token, so that no member
becomes its first child. -/
structure Kept (n : Node) : Prop where
  tidy : Tidy n
  opened : isBodyKind n.kind = true → ∀ e ∈ n.children.head?, e.node? = none

/-! ### Children -/

@[simp] theorem marks_token (t : Token) (es : List Element) : marks (.token t :: es) = marks es :=
  rfl

@[simp] theorem marks_node (n : Node) (es : List Element) :
    marks (.node n :: es) = n.markers :: marks es :=
  rfl

@[simp] theorem marks_append (es fs : List Element) : marks (es ++ fs) = marks es ++ marks fs := by
  rw [marks, List.filterMap_append, List.map_append]
  rfl

theorem mem_marks {es : List Element} {markers : Markers} :
    markers ∈ marks es ↔ ∃ c, Element.node c ∈ es ∧ c.markers = markers := by
  simp only [marks, List.mem_map, mem_childNodes]

@[simp] theorem marks_tokens (ts : List Token) : marks (ts.map .token) = [] := by
  induction ts with
  | nil => rfl
  | cons t ts ih => exact ih

theorem marks_nodes (items : List Node) : marks (items.map .node) = items.map Node.markers := by
  rw [marks, List.filterMap_map]
  simp [Function.comp_def, Element.node?]

/-- The one list of children starts like the other, unless it has none: with as much trivia, and with
a token if the other does. -/
def StartsLike (es' es : List Element) : Prop :=
  ∀ e' ∈ es'.head?, ∃ e ∈ es.head?, e'.lead = e.lead ∧ (e.node? = none → e'.node? = none)

theorem StartsLike.refl (es : List Element) : StartsLike es es :=
  fun e he => ⟨e, he, rfl, id⟩

theorem startsLike_of_front {es' es : List Element} (h : es' <+: es) : StartsLike es' es := by
  intro e' he'
  obtain ⟨rest, rfl⟩ := h
  cases es' with
  | nil => cases he'
  | cons e es' => exact ⟨e', he', rfl, id⟩

theorem startsLike_cons {e' e : Element} (hlead : e'.lead = e.lead)
    (htoken : e.node? = none → e'.node? = none) (es' es : List Element) :
    StartsLike (e' :: es') (e :: es) := by
  rintro _ ⟨⟩
  exact ⟨e, rfl, hlead, htoken⟩

theorem startsLike_node {n' n : Node} (hlead : n'.lead = n.lead) (es' es : List Element) :
    StartsLike (.node n' :: es') (.node n :: es) := by
  have hnode : (Element.node n).node? = none → (Element.node n').node? = none := nofun
  exact @startsLike_cons (.node n') (.node n) hlead hnode es' es

theorem startsLike_child {front : List Element} {e' e : Element}
    (h : front = [] → e'.lead = e.lead ∧ (e.node? = none → e'.node? = none)) (es' es : List Element) :
    StartsLike (front ++ e' :: es') (front ++ e :: es) := by
  cases front with
  | nil => exact startsLike_cons (h rfl).1 (h rfl).2 es' es
  | cons first front => exact startsLike_cons rfl id _ _

theorem Kept.relisted {n n' : Node} (h : Kept n) (hkind : n'.kind = n.kind)
    (hstarts : StartsLike n'.children n.children) (hmarked : Marked n.kind (marks n'.children)) :
    Kept n' where
  tidy.first := fun e' he' => by
    obtain ⟨e, he, hlead, _⟩ := hstarts e' he'
    rw [hlead, h.tidy.first e he]
  tidy.marked := hkind ▸ hmarked
  opened := fun hbody e' he' => by
    obtain ⟨e, he, _, htoken⟩ := hstarts e' he'
    exact htoken (h.opened (hkind ▸ hbody) e he)

theorem Kept.congr {n n' : Node} (h : Kept n) (hkind : n'.kind = n.kind)
    (hmarks : marks n'.children = marks n.children) (hstarts : StartsLike n'.children n.children) :
    Kept n' :=
  h.relisted hkind hstarts (hmarks ▸ h.tidy.marked)

/-- What passes keep holds below these children. -/
def AllKept (es : List Element) : Prop :=
  ∀ c, Element.node c ∈ es → c.Everywhere Kept

theorem allKept_token {t : Token} {es : List Element} : AllKept (.token t :: es) ↔ AllKept es := by
  refine ⟨fun h c hc => h c (List.mem_cons_of_mem _ hc), fun h c hc => ?_⟩
  rcases List.mem_cons.1 hc with hc | hc
  · cases hc
  · exact h c hc

theorem allKept_node {n : Node} {es : List Element} :
    AllKept (.node n :: es) ↔ n.Everywhere Kept ∧ AllKept es := by
  refine ⟨fun h => ⟨h n List.mem_cons_self, fun c hc => h c (List.mem_cons_of_mem _ hc)⟩,
    fun h c hc => ?_⟩
  rcases List.mem_cons.1 hc with hc | hc
  · cases hc
    exact h.1
  · exact h.2 c hc

theorem allKept_single {n : Node} (h : n.Everywhere Kept) : AllKept [.node n] :=
  allKept_node.2 ⟨h, fun _ hc => absurd hc List.not_mem_nil⟩

theorem allKept_child {front behind : List Element} {e e' : Element}
    (h : AllKept (front ++ e :: behind)) (he' : AllKept [e']) : AllKept (front ++ e' :: behind) := by
  intro c hc
  rcases List.mem_append.1 hc with hc | hc
  · exact h c (List.mem_append_left _ hc)
  · rcases List.mem_cons.1 hc with hc | hc
    · exact he' c (hc ▸ List.mem_singleton_self _)
    · exact h c (List.mem_append_right _ (List.mem_cons_of_mem _ hc))

theorem everywhere_kept_congr {n n' : Node} (h : n.Everywhere Kept) (hkind : n'.kind = n.kind)
    (hchildren : n'.children = n.children) : n'.Everywhere Kept := by
  obtain ⟨hn, hbelow⟩ := everywhere_iff.1 h
  refine everywhere_iff.2 ⟨hn.congr hkind (by rw [hchildren]) ?_, hchildren ▸ hbelow⟩
  exact hchildren ▸ .refl n.children

/-! ### Steps -/

/-- A node in place of another: what stands around it sees no difference, and in it everything is as
it was found to be. -/
structure Keeps (n n' : Node) : Prop where
  kind : n'.kind = n.kind
  lead : n'.lead = n.lead
  markers : n'.markers = n.markers
  kept : n'.Everywhere Kept

theorem Keeps.refl {n : Node} (h : n.Everywhere Kept) : Keeps n n :=
  ⟨rfl, rfl, rfl, h⟩

theorem Keeps.trans {n n' n'' : Node} (h : Keeps n n') (h' : Keeps n' n'') : Keeps n n'' :=
  ⟨h'.kind.trans h.kind, h'.lead.trans h.lead, h'.markers.trans h.markers, h'.kept⟩

section
variable {n : Node} (h : n.Everywhere Kept)
include h

theorem keeps_children {es' : List Element} (hmarks : marks es' = marks n.children)
    (hstarts : StartsLike es' n.children) (hbelow : AllKept es') :
    Keeps n { n with children := es' } :=
  ⟨rfl, rfl, rfl, everywhere_iff.2 ⟨(h n (mem_preorder_self n)).congr rfl hmarks hstarts, hbelow⟩⟩

theorem keeps_child {front behind : List Element} {e e' : Element}
    (hchildren : n.children = front ++ e :: behind) (hmarks : marks [e'] = marks [e])
    (hstarts : front = [] → e'.lead = e.lead ∧ (e.node? = none → e'.node? = none))
    (hbelow : AllKept [e']) : Keeps n { n with children := front ++ e' :: behind } := by
  refine keeps_children h ?_ (hchildren ▸ startsLike_child hstarts behind behind)
    (allKept_child (hchildren ▸ (everywhere_iff.1 h).2) hbelow)
  rw [hchildren, marks_append, marks_append, ← List.singleton_append, marks_append, hmarks,
    ← marks_append, List.singleton_append]

theorem keeps_withChild {index : Nat} {e e' : Element} (hat : n.children[index]? = some e)
    (hmarks : marks [e'] = marks [e])
    (hstarts : index = 0 → e'.lead = e.lead ∧ (e.node? = none → e'.node? = none))
    (hbelow : AllKept [e']) : Keeps n (n.withChild index e') := by
  obtain ⟨hindex, rfl⟩ := List.getElem?_eq_some_iff.1 hat
  have hchildren : n.children =
      n.children.take index ++ n.children[index] :: n.children.drop (index + 1) := by
    rw [← List.drop_eq_getElem_cons hindex, List.take_append_drop]
  have hkeeps := keeps_child h hchildren hmarks (fun hnil => hstarts ?_) hbelow
  · rwa [Node.withChild, List.set_eq_take_append_cons_drop, if_pos hindex]
  · rcases List.take_eq_nil_iff.1 hnil with hzero | hnil
    · exact hzero
    · rw [hnil] at hindex
      exact absurd hindex (Nat.not_lt_zero index)

end

/-! ### Semicolons that are taken away -/

theorem allKept_reled {es es' : List Element} (h : List.Forall₂ Reled es es') (hes : AllKept es) :
    AllKept es' ∧ marks es' = marks es := by
  induction h with
  | nil => exact ⟨hes, rfl⟩
  | @cons e e' es es' h _ ih =>
      obtain ⟨lead, rfl⟩ := h
      cases e with
      | token t =>
          obtain ⟨hrest, hmarks⟩ := ih (allKept_token.1 hes)
          exact ⟨allKept_token.2 hrest, hmarks⟩
      | node n =>
          obtain ⟨hn, hes⟩ := allKept_node.1 hes
          obtain ⟨hrest, hmarks⟩ := ih hes
          exact ⟨allKept_node.2 ⟨everywhere_kept_congr hn rfl rfl, hrest⟩,
            congrArg (n.markers :: ·) hmarks⟩

theorem has_erase {markers : Markers} {kind other : MarkerKind}
    (h : (markers.erase kind).has other = true) : other ≠ kind ∧ markers.has other = true := by
  have hne : other ≠ kind := by
    rintro rfl
    rw [Markers.has, Markers.get?_erase_self] at h
    cases h
  rw [Markers.has, Markers.get?_erase_of_ne _ hne] at h
  exact ⟨hne, h⟩

theorem marked_erase {kind : Tree.Kind} {front : List Markers} {last : Markers}
    (h : Marked kind (front ++ [last])) : Marked kind (front ++ [last.erase .semicolon]) where
  sequence := fun hlayout markers hmarkers => by
    have hall := h.sequence hlayout
    rcases List.mem_append.1 hmarkers with hmarkers | hmarkers
    · exact hall markers (List.mem_append_left _ hmarkers)
    · rw [List.mem_singleton.1 hmarkers, hall last (by simp)]
      rfl
  spaced := fun hlayout => by
    have hspaced := h.spaced hlayout
    rw [List.dropLast_concat] at hspaced ⊢
    exact hspaced
  last := fun hlayout markers hmarkers => by
    rw [List.getLast?_concat] at hmarkers
    obtain rfl := Option.some.inj hmarkers
    obtain ⟨hseparator, hcomma, -⟩ := h.last hlayout last (by simp)
    refine ⟨?_, fun hhas => hcomma (has_erase hhas).2, fun hhas => absurd rfl (has_erase hhas).1⟩
    by_contra hhas
    rw [Bool.not_eq_false] at hhas
    rw [(has_erase hhas).2] at hseparator
    cases hseparator

section
variable {n : Node} (h : n.Everywhere Kept)
include h

theorem keeps_withoutEmpty (hbody : isBodyKind n.kind = true) :
    Keeps n ((withoutEmpty n).getD n) := by
  obtain ⟨hn, hbelow⟩ := everywhere_iff.1 h
  rw [withoutEmpty]
  split_ifs
  · have hfiltered : AllKept (n.children.filter fun e => !isEmpty e) := fun c hc =>
      hbelow c (List.mem_filter.1 hc).1
    obtain ⟨hkept, hmarks⟩ := allKept_reled (reled_dropEmpty {} n.children) hfiltered
    have hlayout : n.kind.layout = .sequence := by
      simp only [isBodyKind, Bool.or_eq_true, beq_iff_eq] at hbody
      rcases hbody with (hkind | hkind) | hkind <;> rw [hkind] <;> rfl
    have hstarts : StartsLike (dropEmpty {} n.children) n.children := by
      have hopened := hn.opened hbody
      cases hchildren : n.children with
      | nil => exact .refl []
      | cons e es =>
          rw [hchildren] at hopened
          have hno : isEmpty e = false := by rw [isEmpty, hopened e rfl]; rfl
          rw [dropEmpty_cons es hno]
          exact startsLike_cons rfl id _ _
    refine ⟨rfl, rfl, rfl, everywhere_iff.2 ⟨hn.relisted rfl hstarts ⟨fun _ markers hmarkers => ?_,
      fun hlist => absurd hlayout hlist, fun hlist => absurd hlayout hlist⟩, hkept⟩⟩
    obtain ⟨c, hc, rfl⟩ := mem_marks.1 (hmarks ▸ hmarkers)
    exact hn.tidy.marked.sequence hlayout _ (mem_marks.2 ⟨c, (List.mem_filter.1 hc).1, rfl⟩)
  · exact .refl h

theorem keeps_carryAfter (index : Nat) (removed : String) :
    Keeps n (carryAfter n index removed) := by
  rw [carryAfter]
  split
  · rename_i next hnext
    split_ifs
    · exact .refl h
    · have hbelow := (everywhere_iff.1 h).2
      have hreled : List.Forall₂ Reled [next]
          [next.withLead ((Carried.take {} removed).onto next.lead)] := .cons ⟨_, rfl⟩ .nil
      obtain ⟨hkept, hmarks⟩ := allKept_reled hreled fun c hc => hbelow c (by
        obtain rfl := List.mem_singleton.1 hc
        exact List.mem_of_getElem? hnext)
      exact keeps_withChild h hnext hmarks (fun hzero => absurd hzero (Nat.succ_ne_zero index)) hkept
  · exact .refl h

theorem marks_behind {front behind : List Element} {item : Node} {marker : Marker}
    (hchildren : n.children = front ++ .node item :: behind)
    (hmarker : item.markers.get? .semicolon = some marker) : marks behind = [] := by
  obtain ⟨hn, -⟩ := everywhere_iff.1 h
  have hmarks : marks n.children = marks front ++ item.markers :: marks behind := by
    rw [hchildren, marks_append, marks_node]
  by_contra hne
  obtain ⟨before, hspaced⟩ : ∃ before, item.markers = [⟨.separator, before⟩] := by
    by_cases hlayout : n.kind.layout = .sequence
    · have hnil := hn.tidy.marked.sequence hlayout item.markers (by simp [hmarks])
      rw [hnil] at hmarker
      cases hmarker
    · refine hn.tidy.marked.spaced hlayout item.markers ?_
      rw [hmarks, List.dropLast_append_of_ne_nil (by simp), List.dropLast_cons_of_ne_nil hne]
      simp
  rw [hspaced] at hmarker
  cases hmarker

theorem keeps_unmarked {front behind : List Element} {last : Node}
    (hchildren : n.children = front ++ .node last :: behind) (hbehind : marks behind = []) :
    Keeps n { n with children := front ++ .node (unmarked last .semicolon) :: behind } := by
  obtain ⟨hn, hbelow⟩ := everywhere_iff.1 h
  have hmarked := hn.tidy.marked
  rw [hchildren, marks_append, marks_node, hbehind] at hmarked
  have hstarts : StartsLike (front ++ .node (unmarked last .semicolon) :: behind) n.children := by
    rw [hchildren]
    refine startsLike_child (fun _ => ⟨?_, fun hnone => ?_⟩) behind behind
    · rfl
    · cases hnone
  refine ⟨rfl, rfl, rfl, everywhere_iff.2 ⟨hn.relisted rfl hstarts ?_, ?_⟩⟩
  · rw [marks_append, marks_node, hbehind]
    exact marked_erase hmarked
  · rw [hchildren] at hbelow
    exact allKept_child hbelow (allKept_single (everywhere_kept_congr (hbelow last (by simp)) rfl rfl))

theorem keeps_withoutResourceTerminator : Keeps n ((withoutResourceTerminator n).getD n) := by
  rcases resources_cases n.children with hnone | ⟨front, last, behind, hchildren, hlast, hbehind⟩
  · simp only [withoutResourceTerminator, lastResource_eq_none hnone, Option.bind_eq_bind,
      Option.bind_none, Option.getD_none]
    exact .refl h
  have hindex : lastResource? n.children = some front.length := by
    rw [hchildren]
    exact lastResource_append hlast hbehind
  have hat : n.children[front.length]? = some (.node last) := by simp [hchildren]
  simp only [withoutResourceTerminator, hindex, hat, Option.bind_eq_bind, Option.bind_some,
    Element.node?]
  cases hmarker : last.markers.get? .semicolon with
  | none => exact .refl h
  | some terminator =>
      have hkeeps := keeps_unmarked h hchildren (marks_behind h hchildren hmarker)
      have hset : n.withChild front.length (.node (unmarked last .semicolon)) =
          { n with children := front ++ .node (unmarked last .semicolon) :: behind } := by
        rw [Node.withChild, hchildren]
        simp
      rw [Option.bind_some, Option.getD_some, hset]
      exact hkeeps.trans (keeps_carryAfter hkeeps.kept _ _)

end

theorem kept_withoutTerminator {constants trimmed : Node} {removed : String}
    (h : constants.Everywhere Kept) (htrimmed : withoutTerminator constants = some (trimmed, removed)) :
    trimmed.markers = constants.markers ∧ trimmed.Everywhere Kept := by
  rw [withoutTerminator] at htrimmed
  split at htrimmed
  · rename_i last hlast
    obtain ⟨terminator, -, htrimmed⟩ := Option.map_eq_some_iff.1 htrimmed
    cases htrimmed
    obtain ⟨front, hchildren⟩ := List.getLast?_eq_some_iff.1 hlast
    have hkeeps := keeps_unmarked h hchildren rfl
    rw [hchildren, List.dropLast_concat]
    exact ⟨rfl, hkeeps.kept⟩
  · rename_i t hlast
    split_ifs at htrimmed
    cases htrimmed
    obtain ⟨front, hchildren⟩ := List.getLast?_eq_some_iff.1 hlast
    have hmarks : marks constants.children.dropLast = marks constants.children := by
      rw [hchildren, List.dropLast_concat, marks_append]
      exact (List.append_nil _).symm
    have hkeeps := keeps_children h hmarks
      (startsLike_of_front (List.dropLast_prefix constants.children)) fun c hc =>
        (everywhere_iff.1 h).2 c (List.dropLast_subset _ hc)
    exact ⟨rfl, everywhere_kept_congr hkeeps.kept rfl rfl⟩
  · cases htrimmed

theorem keeps_withoutConstantsTerminator {n : Node} (h : n.Everywhere Kept)
    (hbody : isBodyKind n.kind = true) : Keeps n ((withoutConstantsTerminator n).getD n) := by
  cases hstep : withoutConstantsTerminator n with
  | none => exact .refl h
  | some r =>
      obtain ⟨index, constants, trimmed, removed, -, hat, htrimmed, rfl⟩ :=
        withoutConstantsTerminator_eq_some hstep
      obtain ⟨hn, hbelow⟩ := everywhere_iff.1 h
      obtain ⟨hmarkers, hkept⟩ :=
        kept_withoutTerminator (hbelow constants (List.mem_of_getElem? hat)) htrimmed
      have hkeeps : Keeps n (n.withChild index (.node trimmed)) := by
        refine keeps_withChild h hat (by simp [marks, Element.node?, hmarkers]) (fun hzero => ?_) ?_
        · subst hzero
          cases hn.opened hbody _ (by rwa [List.head?_eq_getElem?])
        · exact allKept_single hkept
      exact hkeeps.trans (keeps_carryAfter hkeeps.kept _ _)

theorem keeps_trim {n : Node} (h : n.Everywhere Kept) {kind : Kind} (hkind : n.kind = .java kind) :
    Keeps n ((trim kind n).getD n) := by
  cases kind with
  | block => exact keeps_withoutEmpty h (by rw [hkind]; rfl)
  | classBody => exact keeps_withoutEmpty h (by rw [hkind]; rfl)
  | enumBody =>
      have hbody : isBodyKind n.kind = true := by rw [hkind]; rfl
      have hcleared := keeps_withoutEmpty h hbody
      rw [trim, trimEnumBody_getD]
      exact hcleared.trans
        (keeps_withoutConstantsTerminator hcleared.kept (by rw [hcleared.kind, hbody]))
  | tryResources => exact keeps_withoutResourceTerminator h
  | _ => exact .refl h

/-! ### Names that are replaced -/

section
variable {r : MethodName.Renaming}

theorem everywhere_kept_withToken {n : Node} (h : n.Everywhere Kept) {index : Nat} {t : Token}
    (hat : n.children[index]? = some (.token t)) (text : String) :
    Keeps n (n.withChild index (.token { t with text })) :=
  keeps_withChild h hat rfl (fun _ => ⟨rfl, id⟩) nofun

theorem keeps_respellHere {n : Node} (h : n.Everywhere Kept) : Keeps n (r.respellHere n) := by
  rcases r.respellHere_cases n with hsame | ⟨info, m, w, _, _, _, hw, hrespelled⟩
  · rw [hsame]
    exact .refl h
  · rw [hrespelled]
    obtain ⟨named, hnamed, rfl⟩ := Option.map_eq_some_iff.1 hw
    obtain ⟨front, t, behind, hchildren, rfl⟩ := withMethodName_eq hnamed
    have hkeeps : Keeps n
        { n with children := front ++ .token { t with text := r.newName } :: behind } :=
      keeps_child h hchildren rfl (fun _ => ⟨rfl, id⟩) nofun
    exact ⟨rfl, rfl, rfl, everywhere_kept_congr hkeeps.kept rfl rfl⟩

theorem keeps_withImportMember {clause added : Node} {member : String} (h : clause.Everywhere Kept)
    (hadded : withImportMember? clause member = some added) : Keeps clause added := by
  simp only [withImportMember?, Option.bind_eq_bind, Option.bind_eq_some_iff] at hadded
  obtain ⟨nameIndex, _, e, hat, name, hname, index, _, e', hat', t, ht, hadded⟩ := hadded
  cases hadded
  cases e with
  | token _ => cases hname
  | node _ =>
      cases hname
      cases e' with
      | node _ => cases ht
      | token _ =>
          cases ht
          have hnamed := everywhere_kept_withToken
            ((everywhere_iff.1 h).2 name (List.mem_of_getElem? hat)) hat' member
          exact keeps_withChild h hat rfl (fun _ => ⟨rfl, fun hnone => by cases hnone⟩)
            (allKept_single hnamed.kept)

theorem replaceChild_kept {seen : MethodName.Seen} {existing : List (String × String)} {e : Element}
    {es : List Element} (h : AllKept [e]) (hes : r.replaceChild seen existing e = some es) :
    ∃ (n first : Node) (others : List Node), e = .node n ∧ es = .node first :: others.map .node ∧
      Keeps n first ∧ ∀ m ∈ others, m.markers = n.markers ∧ m.Everywhere Kept := by
  cases e with
  | token t => cases hes
  | node n =>
      have hn := h n (List.mem_singleton_self _)
      rw [MethodName.Renaming.replaceChild] at hes
      split at hes
      · split_ifs at hes
        rw [MethodName.Renaming.replaceImport] at hes
        split_ifs at hes
        · obtain ⟨added, hadded, rfl⟩ := Option.map_eq_some_iff.1 hes
          have hkeeps := keeps_withImportMember hn hadded
          refine ⟨n, n, [_], rfl, rfl, .refl hn, fun m hm => ?_⟩
          rw [List.mem_singleton.1 hm]
          exact ⟨hkeeps.markers, everywhere_kept_congr hkeeps.kept rfl rfl⟩
        · obtain ⟨renamed, hrenamed, rfl⟩ := Option.map_eq_some_iff.1 hes
          exact ⟨n, renamed, [], rfl, rfl, keeps_withImportMember hn hrenamed,
            fun m hm => absurd hm List.not_mem_nil⟩
      · cases hes

theorem keeps_imports {unit : Node} (h : unit.Everywhere Kept)
    (hkind : unit.kind = .java .compilationUnit) (seen : MethodName.Seen) :
    Keeps unit ((r.imports unit seen).getD unit) := by
  obtain ⟨hunit, hbelow⟩ := everywhere_iff.1 h
  rw [MethodName.Renaming.imports_eq, MethodName.Renaming.edited]
  generalize unit.childNodes.filterMap staticImportParts? = existing
  -- What stands in place of a child has its markers and starts like it.
  have hedit : ∀ e ∈ unit.children, AllKept ((r.replaceChild seen existing e).getD [e]) ∧
      (∀ markers ∈ marks ((r.replaceChild seen existing e).getD [e]), markers ∈ marks [e]) ∧
        ∃ first others, (r.replaceChild seen existing e).getD [e] = first :: others ∧
          first.lead = e.lead ∧ (e.node? = none → first.node? = none) := by
    intro e he
    have hkept : AllKept [e] := fun c hc => hbelow c ((List.mem_singleton.1 hc).symm ▸ he)
    cases hes : r.replaceChild seen existing e with
    | none => exact ⟨hkept, fun _ => id, e, [], rfl, rfl, id⟩
    | some es =>
        obtain ⟨n, first, others, rfl, rfl, hfirst, hothers⟩ := replaceChild_kept hkept hes
        refine ⟨allKept_node.2 ⟨hfirst.kept, fun c hc => (hothers c (by simpa using hc)).2⟩,
          fun markers hmarkers => ?_, _, _, rfl, hfirst.lead, fun hnone => by cases hnone⟩
        · rw [Option.getD_some, marks_node, marks_nodes, List.mem_cons, List.mem_map] at hmarkers
          rcases hmarkers with rfl | ⟨m, hm, rfl⟩
          · exact hfirst.markers ▸ List.mem_singleton_self _
          · exact (hothers m hm).1 ▸ List.mem_singleton_self _
  have hlayout : unit.kind.layout = .sequence := by rw [hkind]; rfl
  refine ⟨rfl, rfl, rfl, everywhere_iff.2 ⟨hunit.relisted rfl ?_ ⟨fun _ markers hmarkers => ?_,
    fun hlist => absurd hlayout hlist, fun hlist => absurd hlayout hlist⟩, fun c hc => ?_⟩⟩
  · cases hchildren : unit.children with
    | nil => exact .refl []
    | cons e es =>
        obtain ⟨-, -, first, others, hsame, hlead, htoken⟩ := hedit e (by simp [hchildren])
        rw [List.flatMap_cons, hsame]
        exact startsLike_cons hlead htoken _ _
  · obtain ⟨c, hc, rfl⟩ := mem_marks.1 hmarkers
    obtain ⟨e, he, hc⟩ := List.mem_flatMap.1 hc
    obtain ⟨d, hd, hsame⟩ := mem_marks.1 ((hedit e he).2.1 _ (mem_marks.2 ⟨c, hc, rfl⟩))
    rw [← hsame]
    exact hunit.tidy.marked.sequence hlayout _
      (mem_marks.2 ⟨d, (List.mem_singleton.1 hd).symm ▸ he, rfl⟩)
  · obtain ⟨e, he, hc⟩ := List.mem_flatMap.1 hc
    exact (hedit e he).1 c hc

end

/-! ### Walks -/

/-- What stands in place of a node keeps what passes keep. -/
def Keeping {σ : Type} : VisitRelation σ :=
  fun n _ n' _ _ => n.Everywhere Kept → Keeps n n'

theorem swept_keeping {σ : Type} {es es' : List Element} {s s' : σ} {changed : Bool}
    (h : Swept Keeping es s es' changed s') (hes : AllKept es) :
    marks es' = marks es ∧ StartsLike es' es ∧ AllKept es' := by
  induction h with
  | nil => exact ⟨rfl, .refl [], hes⟩
  | token _ ih =>
      obtain ⟨hmarks, -, hkept⟩ := ih (allKept_token.1 hes)
      exact ⟨hmarks, startsLike_cons rfl id _ _, allKept_token.2 hkept⟩
  | node hn _ ih =>
      obtain ⟨hfirst, hes⟩ := allKept_node.1 hes
      obtain ⟨hmarks, -, hkept⟩ := ih hes
      have hkeeps := hn hfirst
      refine ⟨?_, startsLike_node hkeeps.lead _ _, allKept_node.2 ⟨hkeeps.kept, hkept⟩⟩
      rw [marks_node, marks_node, hmarks, hkeeps.markers]

theorem keeps_walk {σ : Type} {visitor : Visitor σ}
    (henter : ∀ n cursor s, (visitor.enter n cursor s).1 = none)
    (hleave : ∀ n cursor s, n.Everywhere Kept → Keeps n ((visitor.leave n cursor s).1.getD n))
    {root : Node} (h : root.Everywhere Kept) (start : σ) :
    Keeps root ((Recipe.passOf visitor start root).getD root) := by
  have hleaves : visitor.Leaves Keeping := by
    intro n cursor s s' es' changed hswept v left hn
    obtain ⟨hmarks, hstarts, hkept⟩ := swept_keeping hswept (everywhere_iff.1 hn).2
    have hkeeps := keeps_children hn hmarks hstarts hkept
    exact hkeeps.trans (hleave v cursor s' hkeeps.kept)
  rw [Recipe.passOf]
  cases haccepts : visitor.accepts root with
  | false =>
      rw [visitor.walk_rejected haccepts]
      exact .refl h
  | true => exact Visitor.walk_sweeps henter hleaves haccepts start h

theorem keeps_removeExtraSemicolons {root : Node} (h : root.Everywhere Kept) :
    Keeps root ((Recipe.passOf Semicolons.visitor () root).getD root) := by
  have henter : ∀ n cursor s, (Semicolons.visitor.enter n cursor s).1 = none := fun _ _ _ => rfl
  refine keeps_walk henter (fun n cursor _ hn => ?_) h ()
  obtain ⟨kind, hkind⟩ | ⟨kind, hkind⟩ :
      (∃ kind, n.kind = .yaml kind) ∨ ∃ kind, n.kind = .java kind := by
    cases n.kind <;> simp
  · rw [leave_yaml hkind]
    exact .refl hn
  · rw [leave_java hkind]
    exact keeps_trim hn hkind

theorem keeps_changeMethodName (r : MethodName.Renaming) {root : Node} (h : root.Everywhere Kept) :
    Keeps root ((r.pass root).getD root) := by
  have henter : ∀ n cursor s, (r.visitor.enter n cursor s).1 = none := fun _ _ _ => rfl
  refine keeps_walk henter (fun n cursor seen hn => ?_) h {}
  by_cases hkind : n.kind = .java .compilationUnit
  · rw [MethodName.Renaming.leave_unit cursor seen hkind]
    exact keeps_imports hn hkind seen
  · rw [MethodName.Renaming.leave_eq n cursor seen hkind]
    exact keeps_respellHere hn

/-! ### Units -/

theorem layout_cases {kind : Tree.Kind} {separator : Delimiter} {closer : Option Delimiter}
    (h : kind.layout = .separated separator closer) :
    (separator = .comma ∧ closer = none) ∨
      (kind = .java .enumConstants ∧ separator = .comma ∧ closer = some .semicolon) ∨
        (kind = .java .tryResources ∧ separator = .semicolon ∧ closer = none) := by
  unfold Kind.layout at h
  split at h
  · cases h
    exact .inr (.inl ⟨rfl, rfl, rfl⟩)
  · cases h
    exact .inr (.inr ⟨rfl, rfl, rfl⟩)
  all_goals cases h
  all_goals exact .inl ⟨rfl, rfl⟩

theorem Separated.ending {separator : Delimiter} {closer : Option Delimiter} {items : List Node}
    (h : Separated separator closer items) :
    ∀ item ∈ items.getLast?, EndMarkers separator closer item.markers := by
  induction h with
  | nil => nofun
  | last hlast =>
      rintro _ ⟨⟩
      exact hlast
  | cons before hmarkers _ ih =>
      intro item hitem
      exact ih item (by simpa using hitem)

theorem marked_of_layoutShape {kind : Tree.Kind} {es : List Element}
    (h : LayoutShape kind.layout es) : Marked kind (marks es) := by
  cases hlayout : kind.layout with
  | sequence =>
      rw [hlayout] at h
      refine ⟨fun _ markers hmarkers => ?_, fun hlist => absurd hlayout hlist,
        fun hlist => absurd hlayout hlist⟩
      obtain ⟨c, hc, rfl⟩ := mem_marks.1 hmarkers
      exact h c hc
  | separated separator closer =>
      rw [hlayout] at h
      obtain ⟨before, after, items, rfl, hseparated⟩ := h
      have hmarks : marks (before.map .token ++ items.map .node ++ after.map .token) =
          items.map Node.markers := by
        rw [marks_append, marks_append, marks_tokens, marks_tokens, marks_nodes, List.append_nil,
          List.nil_append]
      rw [hmarks]
      refine ⟨fun hsequence => ?_, fun _ markers hmarkers => ?_, fun _ markers hmarkers => ?_⟩
      · rw [hlayout] at hsequence
        cases hsequence
      · rw [← List.map_dropLast] at hmarkers
        obtain ⟨item, hitem, rfl⟩ := List.mem_map.1 hmarkers
        exact hseparated.spaced hitem
      · rw [List.getLast?_map] at hmarkers
        obtain ⟨item, hitem, rfl⟩ := Option.map_eq_some_iff.1 hmarkers
        have hend := hseparated.ending item hitem
        rw [hlayout]
        generalize item.markers = markers at hend
        rcases layout_cases hlayout with ⟨rfl, rfl⟩ | ⟨hkind, rfl, rfl⟩ | ⟨hkind, rfl, rfl⟩
        · refine ⟨?_, fun _ => ⟨none, rfl⟩, fun hhas => ?_⟩
          · cases hend <;> rfl
          · cases hend <;> cases hhas
        · refine ⟨?_, fun _ => ⟨_, rfl⟩, fun _ => .inl hkind⟩
          cases hend <;> rfl
        · refine ⟨?_, fun hhas => ?_, fun _ => .inr hkind⟩
          · cases hend <;> rfl
          · cases hend <;> cases hhas

theorem kept_of_shaped {n : Node} (h : Shaped n) : Kept n where
  tidy := ⟨h.first, marked_of_layoutShape h.layout⟩
  opened := by
    intro hbody e he
    obtain ⟨kind, hkind, -, hshape⟩ := h.kind
    simp only [isBodyKind, hkind, Bool.or_eq_true, beq_iff_eq, Kind.java.injEq] at hbody
    rcases hbody with (rfl | rfl) | rfl
    · obtain ⟨items, lead, hchildren⟩ := hshape
      rw [hchildren] at he
      cases he
      rfl
    · obtain ⟨items, lead, hchildren⟩ := hshape
      rw [hchildren] at he
      cases he
      rfl
    · obtain ⟨constants, items, -, -, lead, hchildren⟩ := hshape
      rw [hchildren] at he
      cases he
      rfl

theorem hoisted_of_parseUnit {source : String} {unit : Node} (h : parseUnit source = .ok unit) :
    ∃ es, unit = Node.hoisted (.java .compilationUnit) es := by
  obtain ⟨tokens, _, h⟩ := bind_eq_ok.1 h
  obtain ⟨⟨root, u⟩, hroot, h⟩ := bind_eq_ok.1 h
  cases h
  obtain ⟨es, _, rfl⟩ := Parser.build_run.1 hroot
  exact ⟨es, rfl⟩

theorem kept_of_parseUnit {source : String} {unit : Node} (h : parseUnit source = .ok unit) :
    unit.Everywhere Kept ∧ unit.markers = [] := by
  obtain ⟨es, hhoisted⟩ := hoisted_of_parseUnit h
  obtain ⟨hunit, _⟩ := unit_of_parseUnit h
  obtain ⟨items, last, hchildren, _, hitems⟩ := hunit.children
  have hfirst : ∀ e ∈ unit.children.head?, e.lead = "" := by
    intro e he
    rw [hhoisted] at he
    cases es with
    | nil => cases he
    | cons first es =>
        cases he
        exact first.lead_withLead ""
  have hlayout : LayoutShape unit.kind.layout unit.children := by
    rw [hunit.kind]
    intro c hc
    rw [hchildren] at hc
    exact (hitems c (by simpa using hc)).2
  refine ⟨everywhere_iff.2 ⟨⟨⟨hfirst, marked_of_layoutShape hlayout⟩, fun hbody => ?_⟩,
    fun c hc => ?_⟩, ?_⟩
  · rw [hunit.kind] at hbody
    cases hbody
  · rw [hchildren] at hc
    exact (hitems c (by simpa using hc)).1.imp fun _ => kept_of_shaped
  · rw [hhoisted]
    cases es <;> rfl

theorem kept_untyped {n : Node} (h : Kept n.untyped) : Kept n := by
  refine h.congr (kind_untyped n).symm ?_ ?_
  · rw [children_untyped, untypedList_eq_map]
    induction n.children with
    | nil => rfl
    | cons e es ih =>
        rw [List.map_cons]
        cases e with
        | token t => exact ih
        | node c =>
            rw [marks_node, ih]
            cases c
            rfl
  · rw [children_untyped]
    cases n.children with
    | nil => exact .refl []
    | cons e es =>
        rw [Node.untypedList]
        cases e with
        | token t => exact startsLike_cons rfl id _ _
        | node c =>
            refine startsLike_node ?_ _ _
            cases c
            rfl

theorem root_apply_single {recipe : Recipe} (hchildren : recipe.children = [])
    (state : Recipe.Applied) :
    (recipe.apply state).root = (recipe.own state.root).getD state.root := by
  rw [Recipe.apply_eq_inOrder, Recipe.preorder_eq, hchildren]
  exact Recipe.root_inOrder_cons recipe [] state.root

/-- The recipe is one of the two that change Java trees. -/
def ChangesJava (recipe : Recipe) : Prop :=
  recipe = removeExtraSemicolons ∨ ∃ pattern newName, recipe = changeMethodName pattern newName

theorem keeps_apply {recipe : Recipe} (hrecipe : ChangesJava recipe) {state : Recipe.Applied}
    (h : state.root.Everywhere Kept) : Keeps state.root (recipe.apply state).root := by
  rcases hrecipe with rfl | ⟨pattern, newName, rfl⟩
  · rw [root_apply_single rfl]
    exact keeps_removeExtraSemicolons h
  · rw [root_apply_single rfl, Recipe.own, changeMethodName]
    cases MethodName.renaming? pattern newName with
    | none => exact .refl h
    | some r => exact keeps_changeMethodName r h

theorem keeps_applyAll {recipes : List Recipe} (hrecipes : ∀ recipe ∈ recipes, ChangesJava recipe)
    (state : Recipe.Applied) (h : state.root.Everywhere Kept) :
    Keeps state.root (Recipe.applyAll recipes state).root := by
  induction recipes generalizing state with
  | nil => exact .refl h
  | cons recipe recipes ih =>
      obtain ⟨hrecipe, hrest⟩ := List.forall_mem_cons.1 hrecipes
      have hkeeps := keeps_apply hrecipe h
      rw [Recipe.applyAll]
      exact hkeeps.trans (ih hrest _ hkeeps.kept)

/-- In the tree of a unit, attributed or not, and in the trees that the recipes for Java make of it, in
any order and as often as one likes, trivia and markers are where they belong. -/
theorem tidy_lists {source : String} {unit root : Node} (h : parseUnit source = .ok unit)
    (hroot : root.untyped = unit) {recipes : List Recipe}
    (hrecipes : ∀ recipe ∈ recipes, ChangesJava recipe) :
    let made := (Recipe.applyAll recipes ⟨root, []⟩).root
    made.markers = [] ∧ made.Everywhere Tidy := by
  obtain ⟨hkept, hmarkers⟩ := kept_of_parseUnit h
  have hstart : root.Everywhere Kept := fun m hm =>
    kept_untyped (hkept _ (hroot ▸ mem_preorder_untyped hm))
  have hkeeps := keeps_applyAll hrecipes ⟨root, []⟩ hstart
  have hroot : root.markers = [] := by
    rw [← hroot] at hmarkers
    cases root
    exact hmarkers
  exact ⟨hkeeps.markers.trans hroot, hkeeps.kept.imp fun _ => Kept.tidy⟩

/-- The constants keep their comma, both terminators go, and the method has its new name. -/
theorem tidy_lists_renamed :
    let source := "enum E \x7b A , B, ; ; \x7d"
      ++ " class C \x7b ; void f() \x7b try (r; s ;) \x7b ; f(); \x7d \x7d \x7d"
    ∃ unit, parseUnit source = .ok unit ∧
      let root := attributeUnit (.ofUnits [unit]) unit
      let made := (Recipe.applyAll
        [changeMethodName (some "C f()") (some "g"), removeExtraSemicolons] ⟨root, []⟩).root
      made.print = "enum E \x7b A , B, \x7d"
          ++ " class C \x7b void g() \x7b try (r; s) \x7b g(); \x7d \x7d \x7d" ∧
        made.markers = [] ∧ made.Everywhere Tidy := by
  intro source
  obtain ⟨unit, hunit, hprint⟩ := exists_ok_of_any (x := parseUnit source)
    (p := fun unit =>
      (Recipe.applyAll [changeMethodName (some "C f()") (some "g"), removeExtraSemicolons]
        ⟨attributeUnit (.ofUnits [unit]) unit, []⟩).root.print ==
          "enum E \x7b A , B, \x7d"
            ++ " class C \x7b void g() \x7b try (r; s) \x7b g(); \x7d \x7d \x7d")
    (by decide +kernel)
  refine ⟨unit, hunit, beq_iff_eq.1 hprint,
    tidy_lists hunit (untyped_attributeUnit hunit _) fun recipe hrecipe => ?_⟩
  rcases List.mem_cons.1 hrecipe with rfl | hrecipe
  · exact .inr ⟨_, _, rfl⟩
  · exact .inl (List.mem_singleton.1 hrecipe)

end Codemod.Java
