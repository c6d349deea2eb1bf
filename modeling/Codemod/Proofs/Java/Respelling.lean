import Codemod.Java.Declarations
import Codemod.Proofs.Java.Attributed
import Codemod.Proofs.Java.MethodNames
import Codemod.Proofs.Java.StaticImports
import Mathlib.Data.List.Basic

/-!
Maps of parsed trees that change nothing but names of methods and what attribution found out. What
a scope, a table of symbols or a walk reads off a node is the same behind such a map, as long as
the nodes are those that the grammar makes.
-/

namespace Codemod.Tree

/-- The child with another node in place of a node. -/
def Element.mapNode (φ : Node → Node) : Element → Element
  | .node n => .node (φ n)
  | .token t => .token t

theorem filterMap_node_mapNode (φ : Node → Node) (es : List Element) :
    (es.map (Element.mapNode φ)).filterMap Element.node? = (es.filterMap Element.node?).map φ := by
  rw [List.filterMap_map, List.map_filterMap]
  congr 1
  funext e
  cases e <;> rfl

theorem filterMap_token_mapNode (φ : Node → Node) (es : List Element) :
    (es.map (Element.mapNode φ)).filterMap Element.token? = es.filterMap Element.token? := by
  rw [List.filterMap_map]
  congr 1
  funext e
  cases e <;> rfl

theorem untypedList_eq_mapNode (es : List Element) :
    Node.untypedList es = es.map (Element.mapNode Node.untyped) := by
  rw [untypedList_eq_map]
  congr 1
  funext e
  cases e <;> rfl

end Codemod.Tree

namespace Codemod.Java

open Codemod.Tree

/-! ### The nodes that the grammar makes -/

/-- The kinds of list whose items are read one by one. -/
def itemLists : List Kind :=
  [.parameters, .declarators, .enumConstants, .extendsClause, .implementsClause]

/-- No name of a method stands at a node of this kind. -/
abbrev IsNameless (kind : Tree.Kind) : Prop :=
  listBehindName? kind = none

/-- What is asked of the nodes of a unit so that names of methods stand apart from all that decides
on their meaning. -/
structure Regular (n : Node) : Prop where
  className : n.kind = .java .classDeclaration → (className? n).isSome = true
  items : ∀ kind ∈ itemLists, n.kind = .java kind → ∀ c ∈ n.childNodes, IsNameless c.kind
  qualifiedName : n.kind = .java .qualifiedName → n.childNodes = []
  /-- The list behind the name of a method opens with a parenthesis. -/
  opening : n.kind = .java .parameters ∨ n.kind = .java .arguments → n.hasToken "(" = true

theorem childNodes_of_enclosed {n : Node} {opening closing : String} {items : List Node}
    (h : Enclosed opening closing n.children (items.map .node)) :
    n.childNodes = items ∧ n.hasToken opening = true := by
  obtain ⟨lead, hchildren⟩ := h
  constructor
  · rw [Node.childNodes, hchildren, List.filterMap_cons, List.filterMap_append, List.filterMap_map]
    simp [Element.node?, Function.comp_def]
  · rw [Node.hasToken, Node.tokens, hchildren]
    simp [Element.token?]

theorem childNodes_map_node (items : List Node) :
    (items.map Element.node).filterMap Element.node? = items := by
  rw [List.filterMap_map]
  exact List.filterMap_some

theorem regular_of_formed {n : Node} (h : Formed n) : Regular n where
  className hkind := by
    obtain ⟨name, hname, hmem⟩ := h _ hkind
    rw [className?, firstIdentifier?, Option.isSome_map, List.find?_isSome]
    exact ⟨name, List.mem_filterMap.2 ⟨_, hmem, rfl⟩, by simpa using hname⟩
  items kind hlist hkind c hc := by
    have hshape := h _ hkind
    simp only [itemLists, List.mem_cons, List.not_mem_nil, or_false] at hlist
    rcases hlist with rfl | rfl | rfl | rfl | rfl
    · obtain ⟨items, hitems, henclosed⟩ := hshape
      rw [(childNodes_of_enclosed henclosed).1] at hc
      rw [hitems c hc]
      rfl
    · obtain ⟨items, hitems, hchildren⟩ := hshape
      rw [Node.childNodes, hchildren, childNodes_map_node] at hc
      rw [hitems c hc]
      rfl
    · obtain hchildren | ⟨items, hitems, hchildren⟩ := hshape
      · rw [Node.childNodes, hchildren] at hc
        cases hc
      · rw [Node.childNodes, hchildren, childNodes_map_node] at hc
        rw [hitems c hc]
        rfl
    all_goals
      obtain ⟨keyword, items, hitems, hchildren⟩ := hshape
      rw [Node.childNodes, hchildren, List.filterMap_cons, childNodes_map_node] at hc
      rw [hitems c hc]
      rfl
  qualifiedName hkind := by
    obtain ⟨ts, _, hchildren | ⟨dot, star, _, _, hchildren⟩⟩ := h _ hkind <;>
    · rw [Node.childNodes, hchildren, List.filterMap_map]
      exact List.filterMap_eq_nil_iff.2 fun _ _ => rfl
  opening hkind := by
    rcases hkind with hkind | hkind
    · obtain ⟨items, _, henclosed⟩ := h _ hkind
      exact (childNodes_of_enclosed henclosed).2
    · obtain ⟨items, henclosed⟩ := h _ hkind
      exact (childNodes_of_enclosed henclosed).2

/-- The node is one that the grammar made, and nothing was found out about it yet. -/
structure Parsed (n : Node) : Prop where
  untyped : n.type? = none
  regular : Regular n

theorem parsed_of_parseUnit {source : String} {unit : Node} (h : parseUnit source = .ok unit) :
    unit.Everywhere Parsed :=
  fun n hn => ⟨untyped_of_parseUnit h n hn, regular_of_formed (formed_of_parseUnit h n hn)⟩

/-! ### Maps that keep all but names of methods -/

/-- The map changes nothing but names of methods and what attribution found out. -/
structure Respelling (φ : Node → Node) : Prop where
  kind : ∀ n, (φ n).kind = n.kind
  childNodes : ∀ n, (φ n).childNodes = n.childNodes.map φ
  children : ∀ n, (φ n).children = n.children.map (Element.mapNode φ) ∨
    (methodNameSlot? n).isSome = true

theorem respelling_untyped : Respelling Node.untyped where
  kind := kind_untyped
  childNodes n := by
    rw [Node.childNodes, Node.childNodes, children_untyped, untypedList_eq_mapNode,
      filterMap_node_mapNode]
  children n := .inl (by rw [children_untyped, untypedList_eq_mapNode])

theorem named_of_slot {n : Node} (h : (methodNameSlot? n).isSome = true) : ¬ IsNameless n.kind := by
  obtain ⟨list, _, _, hlist, _⟩ := isSome_methodNameSlot.1 h
  rw [IsNameless, hlist]
  simp

namespace Respelling

variable {φ : Node → Node} (h : Respelling φ) {n : Node}
include h

theorem children_of_nameless (hn : IsNameless n.kind) :
    (φ n).children = n.children.map (Element.mapNode φ) :=
  (h.children n).resolve_right fun hslot => named_of_slot hslot hn

theorem tokens (hn : IsNameless n.kind) : (φ n).tokens = n.tokens := by
  rw [Node.tokens, Node.tokens, h.children_of_nameless hn, filterMap_token_mapNode]

theorem hasToken (hn : IsNameless n.kind) (text : String) :
    (φ n).hasToken text = n.hasToken text := by
  rw [Node.hasToken, Node.hasToken, h.tokens hn]

theorem firstChild (n : Node) (kind : Tree.Kind) :
    (φ n).firstChild? kind = (n.firstChild? kind).map φ := by
  rw [Node.firstChild?, Node.firstChild?, h.childNodes, List.find?_map]
  congr 2
  funext c
  simp [h.kind]

theorem dimensions (n : Node) : Java.dimensions (φ n) = Java.dimensions n := by
  rw [Java.dimensions, Java.dimensions, h.childNodes, List.countP_map]
  congr 1
  funext c
  simp [h.kind]

theorem className (hn : IsNameless n.kind) : className? (φ n) = className? n := by
  rw [className?, className?, firstIdentifier?, firstIdentifier?, h.tokens hn]

theorem declaredName (hn : IsNameless n.kind) : declaredName? (φ n) = declaredName? n := by
  rw [declaredName?, declaredName?, h.tokens hn]

theorem isConstructor (n : Node) : Java.isConstructor (φ n) = Java.isConstructor n := by
  rw [Java.isConstructor, Java.isConstructor, h.kind, h.firstChild, Option.isNone_map]

theorem hasModifier (n : Node) (modifier : String) :
    Java.hasModifier (φ n) modifier = Java.hasModifier n modifier := by
  rw [Java.hasModifier, Java.hasModifier, h.firstChild]
  cases hmodifiers : n.firstChild? (.java .modifiers) with
  | none => rfl
  | some modifiers =>
      have hkind : modifiers.kind = .java .modifiers := by
        simpa using List.find?_some hmodifiers
      simp [h.hasToken (n := modifiers) (by rw [hkind]; rfl)]

theorem regular_iff : Regular (φ n) ↔ Regular n := by
  have hclass : n.kind = .java .classDeclaration → className? (φ n) = className? n :=
    fun hkind => h.className (by rw [hkind]; rfl)
  have hopening : n.kind = .java .parameters ∨ n.kind = .java .arguments →
      (φ n).hasToken "(" = n.hasToken "(" := by
    rintro (hkind | hkind) <;> exact h.hasToken (by rw [hkind]; rfl) _
  constructor
  · intro hn
    refine ⟨fun hkind => hclass hkind ▸ hn.className (h.kind n ▸ hkind), ?_, ?_, ?_⟩
    · intro kind hlist hkind c hc
      rw [← h.kind c]
      refine hn.items kind hlist (h.kind n ▸ hkind) (φ c) ?_
      rw [h.childNodes]
      exact List.mem_map_of_mem hc
    · intro hkind
      have hnil := hn.qualifiedName (h.kind n ▸ hkind)
      rwa [h.childNodes, List.map_eq_nil_iff] at hnil
    · intro hkind
      rw [← hopening hkind]
      exact hn.opening (h.kind n ▸ hkind)
  · intro hn
    refine ⟨fun hkind => ?_, ?_, ?_, ?_⟩
    · rw [h.kind] at hkind
      rw [hclass hkind]
      exact hn.className hkind
    · intro kind hlist hkind c hc
      rw [h.kind] at hkind
      rw [h.childNodes] at hc
      obtain ⟨d, hd, rfl⟩ := List.mem_map.1 hc
      rw [h.kind]
      exact hn.items kind hlist hkind d hd
    · intro hkind
      rw [h.childNodes, hn.qualifiedName (h.kind n ▸ hkind)]
      rfl
    · intro hkind
      rw [h.kind] at hkind
      rw [hopening hkind]
      exact hn.opening hkind

theorem everywhere_regular : (φ n).Everywhere Regular ↔ n.Everywhere Regular := by
  induction n using Node.induction_on with
  | step n ih =>
      rw [everywhere_iff, everywhere_iff, h.regular_iff]
      have hnodes : ∀ c, Element.node c ∈ (φ n).children ↔ ∃ d, Element.node d ∈ n.children ∧ φ d = c := by
        intro c
        rw [← mem_childNodes, ← Node.childNodes, h.childNodes, List.mem_map]
        simp only [Node.childNodes, mem_childNodes]
      constructor
      · rintro ⟨hn, hchildren⟩
        exact ⟨hn, fun c hc => (ih c hc).1 (hchildren _ ((hnodes _).2 ⟨c, hc, rfl⟩))⟩
      · rintro ⟨hn, hchildren⟩
        refine ⟨hn, fun c hc => ?_⟩
        obtain ⟨d, hd, rfl⟩ := (hnodes c).1 hc
        exact (ih d hd).2 (hchildren d hd)

/-! ### Texts -/

theorem paren_of_slot (hregular : n.Everywhere Regular) (hslot : (methodNameSlot? n).isSome = true) :
    '(' ∈ characters n.leaves ∧ '(' ∈ characters (φ n).leaves := by
  have hparen : ∀ {m c : Node}, c ∈ m.childNodes → c.hasToken "(" = true →
      '(' ∈ characters m.leaves := by
    intro m c hc htoken
    obtain ⟨t, ht, htext⟩ := List.any_eq_true.1 htoken
    obtain ⟨e, he, hte⟩ := List.mem_filterMap.1 ht
    have hleaf : Element.token t ∈ c.children := by
      cases e with
      | node d => cases hte
      | token u =>
          cases hte
          exact he
    have hmem : t ∈ m.leaves := mem_leaves.2
      ⟨c, mem_preorder.2 (.inr ⟨c, mem_childNodes.1 hc, mem_preorder_self c⟩), hleaf⟩
    refine List.mem_flatMap.2 ⟨t, hmem, ?_⟩
    rw [beq_iff_eq.1 htext]
    decide
  obtain ⟨list, index, _, hlist, hposition, _⟩ := isSome_methodNameSlot.1 hslot
  obtain ⟨hindex, hfound, _⟩ := List.findIdx?_eq_some_iff_getElem.1 hposition
  obtain ⟨c, hc, hkind⟩ : ∃ c ∈ n.childNodes, c.kind = .java list := by
    have hmem := List.getElem_mem hindex
    generalize n.children[index + 1] = e at hfound hmem
    cases e with
    | token t => cases hfound
    | node c => exact ⟨c, mem_childNodes.2 hmem, by simpa [Element.node?] using hfound⟩
  have hopens : c.kind = .java .parameters ∨ c.kind = .java .arguments := by
    rw [hkind]
    simp only [listBehindName?] at hlist
    split at hlist
    · cases hlist
      exact .inl rfl
    · cases hlist
      exact .inr rfl
    · cases hlist
  have hc' := (everywhere_iff.1 ((everywhere_iff.1 hregular).2 c (mem_childNodes.1 hc))).1
  refine ⟨hparen hc (hc'.opening hopens), hparen (c := φ c) ?_ ?_⟩
  · rw [h.childNodes]
    exact List.mem_map_of_mem hc
  · exact (h.regular_iff.2 hc').opening (by rw [h.kind]; exact hopens)

theorem characters_leaves (hregular : n.Everywhere Regular) :
    characters (φ n).leaves = characters n.leaves ∨
      '(' ∈ characters n.leaves ∧ '(' ∈ characters (φ n).leaves := by
  induction n using Node.induction_on with
  | step n ih =>
      rcases h.children n with hchildren | hslot
      · have hbelow := (everywhere_iff.1 hregular).2
        rw [leaves_eq, leaves_eq n, hchildren]
        generalize n.children = es at ih hbelow
        induction es with
        | nil => exact .inl rfl
        | cons e es ihes =>
            have hrest := ihes (fun c hc => ih c (List.mem_cons_of_mem _ hc))
              fun c hc => hbelow c (List.mem_cons_of_mem _ hc)
            have hfirst : characters (e.mapNode φ).leaves = characters e.leaves ∨
                '(' ∈ characters e.leaves ∧ '(' ∈ characters (e.mapNode φ).leaves := by
              cases e with
              | token t => exact .inl rfl
              | node c => exact ih c List.mem_cons_self (hbelow c List.mem_cons_self)
            rw [List.map_cons, Node.leavesList, Node.leavesList, characters_append,
              characters_append, List.mem_append, List.mem_append]
            rcases hfirst with hfirst | ⟨hfirst, hfirst'⟩
            · rcases hrest with hrest | ⟨hrest, hrest'⟩
              · exact .inl (by rw [hfirst, hrest])
              · exact .inr ⟨.inr hrest, .inr hrest'⟩
            · exact .inr ⟨.inl hfirst, .inl hfirst'⟩
      · exact .inr (h.paren_of_slot hregular hslot)

theorem bareText_test (hregular : n.Everywhere Regular) {α : Type} {p : String → α} {a : α}
    (hp : ∀ text : String, '(' ∈ text.toList → p text = a) :
    p (φ n).bareText = p n.bareText := by
  have htext : ∀ m : Node, m.bareText.toList = characters m.leaves := by
    intro m
    rw [Node.bareText, String.toList_join, characters, List.flatMap_map]
  rcases h.characters_leaves hregular with hsame | ⟨hparen, hparen'⟩
  · rw [← htext, ← htext] at hsame
    rw [String.toList_injective hsame]
  · rw [← htext] at hparen hparen'
    rw [hp _ hparen, hp _ hparen']

theorem bareText_of_tokens (hn : IsNameless n.kind) (hnil : n.childNodes = []) :
    (φ n).bareText = n.bareText := by
  have hsame : (φ n).children = n.children := by
    rw [h.children_of_nameless hn]
    refine (List.map_congr_left fun e he => ?_).trans (List.map_id _)
    cases e with
    | node c => exact absurd (hnil ▸ mem_childNodes.2 he : c ∈ []) List.not_mem_nil
    | token t => rfl
  rw [Node.bareText, Node.bareText, leaves_eq, leaves_eq n, hsame]

/-! ### Imports -/

theorem qualifiedName (hregular : n.Everywhere Regular) :
    qualifiedName? (φ n) = qualifiedName? n := by
  rw [qualifiedName?, qualifiedName?, h.firstChild]
  cases hname : n.firstChild? (.java .qualifiedName) with
  | none => rfl
  | some name =>
      have hkind : name.kind = .java .qualifiedName := by simpa using List.find?_some hname
      have hname := (everywhere_iff.1 ((everywhere_iff.1 hregular).2 name
        (mem_childNodes.1 (List.mem_of_find?_eq_some hname)))).1
      simp [h.bareText_of_tokens (n := name) (by rw [hkind]; rfl) (hname.qualifiedName hkind)]

theorem packageOf (hregular : n.Everywhere Regular) : Java.packageOf (φ n) = Java.packageOf n := by
  rw [Java.packageOf, Java.packageOf, h.firstChild]
  cases hclause : n.firstChild? (.java .packageClause) with
  | none => rfl
  | some clause =>
      have hclause := (everywhere_iff.1 hregular).2 clause
        (mem_childNodes.1 (List.mem_of_find?_eq_some hclause))
      simp [h.qualifiedName hclause]

theorem staticImportParts (hregular : n.Everywhere Regular) :
    staticImportParts? (φ n) = staticImportParts? n := by
  have hstatic : isStaticImport (φ n) = isStaticImport n := by
    rw [isStaticImport, isStaticImport, h.kind]
    by_cases hkind : n.kind = .java .importClause
    · rw [h.hasToken (by rw [hkind]; rfl)]
    · rw [beq_eq_false_iff_ne.2 hkind, Bool.false_and, Bool.false_and]
  rw [staticImportParts?, staticImportParts?, hstatic, h.qualifiedName hregular]

theorem ofUnit (hregular : n.Everywhere Regular) (known : List String) :
    Scope.ofUnit (φ n) known = Scope.ofUnit n known := by
  have hfilter : (n.childNodes.map φ).filter (fun c => c.kind == .java .importClause) =
      (n.childNodes.filter fun c => c.kind == .java .importClause).map φ := by
    rw [List.filter_map]
    congr 2
    funext c
    simp [h.kind]
  rw [Scope.ofUnit, Scope.ofUnit, h.packageOf hregular, h.childNodes, hfilter, List.foldl_map]
  refine List.foldl_ext _ _ _ fun scope clause hclause => ?_
  have hclause := (everywhere_iff.1 hregular).2 clause
    (mem_childNodes.1 (List.mem_filter.1 hclause).1)
  rw [Scope.addImport, Scope.addImport, h.staticImportParts hclause, h.qualifiedName hclause]

/-! ### Scopes -/

variable (scope : Scope)

theorem resolveTree (hn : IsNameless n.kind) : scope.resolveTree (φ n) = scope.resolveTree n := by
  rw [Scope.resolveTree, Scope.resolveTree, h.hasToken hn, h.tokens hn]

theorem childType (n : Node) : scope.childType (φ n) = scope.childType n := by
  rw [Scope.childType, Scope.childType, h.firstChild]
  cases htree : n.firstChild? (.java .typeTree) with
  | none => rfl
  | some tree =>
      have hkind : tree.kind = .java .typeTree := by simpa using List.find?_some htree
      simp [h.resolveTree (n := tree) scope (by rw [hkind]; rfl)]

theorem parameterType (hn : IsNameless n.kind) :
    scope.parameterType (φ n) = scope.parameterType n := by
  rw [Scope.parameterType, Scope.parameterType, h.hasToken hn, h.childType, h.dimensions]

theorem parametersOf (n : Node) : Scope.parametersOf (φ n) = (Scope.parametersOf n).map φ := by
  rw [Scope.parametersOf, Scope.parametersOf, h.firstChild]
  cases n.firstChild? (.java .parameters) with
  | none => rfl
  | some list => exact h.childNodes list

omit h in
theorem nameless_parameter (hregular : n.Everywhere Regular) {p : Node}
    (hp : p ∈ Scope.parametersOf n) : IsNameless p.kind := by
  rw [Scope.parametersOf] at hp
  cases hlist : n.firstChild? (.java .parameters) with
  | none =>
      rw [hlist] at hp
      cases hp
  | some list =>
      rw [hlist] at hp
      have hkind : list.kind = .java .parameters := by simpa using List.find?_some hlist
      have hmem := mem_childNodes.1 (List.mem_of_find?_eq_some hlist)
      have hlistRegular := (everywhere_iff.1 ((everywhere_iff.1 hregular).2 list hmem)).1
      exact hlistRegular.items .parameters (by simp [itemLists]) hkind p hp

theorem method (hregular : n.Everywhere Regular) {f : String → String}
    (hname : methodName? (φ n) = (methodName? n).map f) (declaringType : String) :
    scope.method? (φ n) declaringType =
      (scope.method? n declaringType).map fun m => { m with name := f m.name } := by
  have hparameters : ((Scope.parametersOf n).map φ).map scope.parameterType =
      (Scope.parametersOf n).map scope.parameterType := by
    rw [List.map_map]
    exact List.map_congr_left fun p hp => h.parameterType scope (nameless_parameter hregular hp)
  have hellipsis : (((Scope.parametersOf n).map φ).any fun p => p.hasToken "...") =
      (Scope.parametersOf n).any fun p => p.hasToken "..." := by
    rw [List.any_map, Bool.eq_iff_iff, List.any_eq_true, List.any_eq_true]
    refine exists_congr fun p => and_congr_right fun hp => ?_
    rw [Function.comp_apply, h.hasToken (nameless_parameter hregular hp)]
  rw [Scope.method?, Scope.method?, h.isConstructor, hname, h.parametersOf, hparameters, hellipsis,
    h.childType, h.hasModifier]
  split_ifs
  · rfl
  · rw [Option.map_map, Option.map_map]
    rfl

theorem parameterFrame (hregular : n.Everywhere Regular) :
    Java.parameterFrame scope (φ n) = Java.parameterFrame scope n := by
  rw [Java.parameterFrame, Java.parameterFrame, h.parametersOf, List.foldl_map]
  refine List.foldl_ext _ _ _ fun frame p hp => ?_
  have hp := nameless_parameter hregular hp
  rw [h.declaredName hp, h.parameterType scope hp]

theorem catchFrame (hn : IsNameless n.kind) :
    Java.catchFrame scope (φ n) = Java.catchFrame scope n := by
  rw [Java.catchFrame, Java.catchFrame, h.declaredName hn, h.hasToken hn, h.childType]

theorem declaredVariables (hregular : n.Everywhere Regular) {infer infer' : Node → TypeRef}
    (hinfer : ∀ c : Node, c.Everywhere Regular → infer' (φ c) = infer c) :
    scope.declaredVariables (φ n) infer' = scope.declaredVariables n infer := by
  rw [Scope.declaredVariables, Scope.declaredVariables, h.firstChild, h.firstChild]
  have hbelow := (everywhere_iff.1 hregular).2
  cases htree : n.firstChild? (.java .typeTree) with
  | none => rfl
  | some tree =>
      cases hdeclarators : n.firstChild? (.java .declarators) with
      | none => rfl
      | some declarators =>
          have htreeKind : tree.kind = .java .typeTree := by simpa using List.find?_some htree
          have hkind : declarators.kind = .java .declarators := by
            simpa using List.find?_some hdeclarators
          have htreeRegular := hbelow tree (mem_childNodes.1 (List.mem_of_find?_eq_some htree))
          have hlist := everywhere_iff.1 (hbelow declarators
            (mem_childNodes.1 (List.mem_of_find?_eq_some hdeclarators)))
          have hvar : ((φ tree).bareText == "var") = (tree.bareText == "var") :=
            h.bareText_test (p := fun text => text == "var") htreeRegular fun text hparen => by
              rw [beq_eq_false_iff_ne]
              rintro rfl
              revert hparen
              decide
          simp only [Option.map_some, h.childNodes, List.filterMap_map, Function.comp_def]
          refine List.filterMap_congr fun declared hdeclared => ?_
          have hplain := hlist.1.items .declarators (by simp [itemLists]) hkind declared hdeclared
          have hinitial : (Scope.initialValue? (φ declared)).map infer' =
              (Scope.initialValue? declared).map infer := by
            rw [Scope.initialValue?, Scope.initialValue?, h.hasToken hplain, h.childNodes, List.getLast?_map]
            split_ifs
            · cases hlast : declared.childNodes.getLast? with
              | none => rfl
              | some value =>
                  have hvalue := hlist.2 declared (mem_childNodes.1 hdeclared)
                  simp [hinfer value ((everywhere_iff.1 hvalue).2 value
                    (mem_childNodes.1 (List.mem_of_getLast? hlast)))]
            · rfl
          rw [h.tokens hplain, hvar, hinitial, h.resolveTree scope (by rw [htreeKind]; rfl),
            h.dimensions]

end Respelling

end Codemod.Java
