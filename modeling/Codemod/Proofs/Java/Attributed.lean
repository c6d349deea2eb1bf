import Codemod.Java.Attribution
import Codemod.Proofs.Java.Units
import Codemod.Proofs.Tree.Sweep

/-!
Attributed units. Attribution only adds what it finds out to the nodes of a parsed unit, so the
text and the shape of the unit stay; and a call that it resolves through a static import has a
name and no receiver.
-/

namespace Codemod.Tree

mutual

/-- The node without what attribution found out about it and the nodes below it. -/
def Node.untyped : Node → Node
  | ⟨kind, lead, children, markers, _⟩ =>
      { kind, lead, children := Node.untypedList children, markers }

/-- The child without what attribution found out. -/
def Element.untyped : Element → Element
  | .node n => .node n.untyped
  | .token t => .token t

/-- The children without what attribution found out. -/
def Node.untypedList : List Element → List Element
  | [] => []
  | e :: es => e.untyped :: Node.untypedList es

end

theorem children_untyped (n : Node) : n.untyped.children = Node.untypedList n.children := by
  cases n
  rfl

theorem kind_untyped (n : Node) : n.untyped.kind = n.kind := by
  cases n
  rfl

/-- A tree without attribution stays as it is. -/
theorem untyped_eq_self {n : Node} (h : n.Everywhere fun m => m.type? = none) :
    n.untyped = n := by
  induction n using Node.induction_on with
  | step n ih =>
      obtain ⟨hn, hchildren⟩ := everywhere_iff.1 h
      have hlist : Node.untypedList n.children = n.children := by
        have hall : ∀ c, Element.node c ∈ n.children → c.untyped = c :=
          fun c hc => ih c hc (hchildren c hc)
        generalize n.children = es at hall
        induction es with
        | nil => rfl
        | cons e es ihes =>
            rw [Node.untypedList, ihes fun c hc => hall c (List.mem_cons_of_mem e hc)]
            cases e with
            | token t => rfl
            | node c => rw [Element.untyped, hall c List.mem_cons_self]
      obtain ⟨kind, lead, children, markers, type?⟩ := n
      simp only at hn hlist
      rw [Node.untyped, hlist, hn]

theorem any_node_untypedList (es : List Element) :
    ((Node.untypedList es).any fun e => e.node?.isSome) = es.any fun e => e.node?.isSome := by
  induction es with
  | nil => rfl
  | cons e es ih =>
      cases e with
      | node n => rfl
      | token t => exact ih

theorem delimiters_untyped (layout : Layout) (e : Element) (es : List Element) :
    layout.delimiters e.untyped (Node.untypedList es) = layout.delimiters e es := by
  cases layout with
  | sequence => rfl
  | separated separator closer =>
      cases e with
      | token t => rfl
      | node n =>
          obtain ⟨kind, lead, children, markers, type?⟩ := n
          simp only [Element.untyped, Node.untyped, Layout.delimiters, any_node_untypedList]

theorem print_untyped (n : Node) : n.untyped.print = n.print := by
  induction n using Node.induction_on with
  | step n ih =>
      obtain ⟨kind, lead, children, markers, type?⟩ := n
      rw [Node.untyped, Node.print, Node.print]
      congr 1
      simp only at ih
      induction children with
      | nil => rfl
      | cons e es ihes =>
          rw [Node.untypedList, Node.printList, Node.printList, delimiters_untyped,
            ihes fun c hc => ih c (List.mem_cons_of_mem e hc)]
          cases e with
          | token t => rfl
          | node c => rw [Element.untyped, Element.print, Element.print, ih c List.mem_cons_self]

theorem delimiterTokens_untyped (layout : Layout) (e : Element) (es : List Element) :
    layout.delimiterTokens e.untyped (Node.untypedList es) = layout.delimiterTokens e es := by
  cases layout with
  | sequence => rfl
  | separated separator closer =>
      cases e with
      | token t => rfl
      | node n =>
          obtain ⟨kind, lead, children, markers, type?⟩ := n
          simp only [Element.untyped, Node.untyped, Layout.delimiterTokens, any_node_untypedList]

theorem lexemesIn_untyped (layout : Layout) {es : List Element}
    (h : ∀ c, Element.node c ∈ es → c.untyped.lexemes = c.lexemes) :
    Node.lexemesIn layout (Node.untypedList es) = Node.lexemesIn layout es := by
  induction es with
  | nil => rfl
  | cons e es ih =>
      rw [Node.untypedList, Node.lexemesIn, Node.lexemesIn, delimiterTokens_untyped,
        ih fun c hc => h c (List.mem_cons_of_mem e hc)]
      cases e with
      | token t => rfl
      | node c => rw [Element.untyped, Element.lexemes, Element.lexemes, h c List.mem_cons_self]

theorem lexemes_untyped (n : Node) : n.untyped.lexemes = n.lexemes := by
  induction n using Node.induction_on with
  | step n ih =>
      obtain ⟨kind, lead, children, markers, type?⟩ := n
      rw [Node.untyped, Node.lexemes, Node.lexemes, lexemesIn_untyped kind.layout ih]

theorem anchored_untyped {n : Node} : n.untyped.Anchored ↔ n.Anchored := by
  obtain ⟨kind, lead, children, markers, type?⟩ := n
  rw [Node.Anchored, Node.Anchored, Node.untyped,
    lexemesIn_untyped kind.layout fun c _ => lexemes_untyped c]

theorem mem_untypedList {c : Node} {es : List Element} (h : Element.node c ∈ es) :
    Element.node c.untyped ∈ Node.untypedList es := by
  induction es with
  | nil => cases h
  | cons e es ih =>
      rcases List.mem_cons.1 h with rfl | h
      · exact List.mem_cons_self
      · exact List.mem_cons_of_mem _ (ih h)

/-- Every node of a tree is found in the tree without attribution. -/
theorem mem_preorder_untyped {m n : Node} (h : m ∈ n.preorder) : m.untyped ∈ n.untyped.preorder := by
  induction n using Node.induction_on with
  | step n ih =>
      refine mem_preorder.2 ?_
      rcases mem_preorder.1 h with rfl | ⟨c, hc, hm⟩
      · exact .inl rfl
      · exact .inr ⟨c.untyped, children_untyped n ▸ mem_untypedList hc, ih c hc hm⟩

theorem untypedList_eq_map (es : List Element) :
    Node.untypedList es = es.map Element.untyped := by
  induction es with
  | nil => rfl
  | cons e es ih => rw [Node.untypedList, ih, List.map_cons]

theorem untypedList_eq_tokens {es : List Element} {ts : List Token}
    (h : Node.untypedList es = ts.map .token) : es = ts.map .token := by
  induction es generalizing ts with
  | nil =>
      cases ts with
      | nil => rfl
      | cons t ts => cases h
  | cons e es ih =>
      cases ts with
      | nil => cases h
      | cons t ts =>
          cases e with
          | node n => cases h
          | token t' =>
              rw [Node.untypedList, Element.untyped, List.map_cons, List.cons.injEq] at h
              rw [List.map_cons, ih h.2, h.1]

end Codemod.Tree

namespace Codemod.Java

open Codemod.Tree

/-- A call that is resolved through a static import has a name and no receiver. -/
def CallShape (n : Node) : Prop :=
  ∀ m, n.kind = .java .methodInvocation → n.type? = some (.invocation m true) →
    (methodNameSlot? n).isSome = true ∧ receiver? n = none

/-- The node is an import clause as the parser leaves it: words, a dotted name and a
semicolon. -/
def ClauseShaped (n : Node) : Prop :=
  ∃ (words : List Token) (name : Node) (semicolon : Token),
    name.kind = .java .qualifiedName ∧ KindShape .qualifiedName name.children ∧
      n.children = words.map .token ++ [.node name, .token semicolon]

/-- The node is a unit that was parsed and attributed, or made of one by a recipe. -/
structure Attributed (unit : Node) : Prop where
  kind : unit.kind = .java .compilationUnit
  inner : ∀ c, Element.node c ∈ unit.children →
    c.Everywhere fun m => m.kind ≠ .java .compilationUnit
  calls : ∀ c, Element.node c ∈ unit.children → c.Everywhere CallShape
  clauses : ∀ c, Element.node c ∈ unit.children → c.kind = .java .importClause → ClauseShaped c

/-! ### What attribution does at a node -/

/-- The node stands for the other one, with what attribution found out added to it and the
nodes below it. -/
def Types : VisitRelation Context :=
  fun n _ n' _ _ => n'.untyped = n.untyped ∧
    ((n.Everywhere fun m => m.type? = none) → n'.Everywhere CallShape)

theorem unqualifiedCall_named {symbols : SymbolTable} {context : Context} {call : Node}
    {m : Signature} (h : resolveCall? symbols context call = some (.invocation m true)) :
    (methodNameSlot? call).isSome = true ∧ receiver? call = none := by
  simp only [resolveCall?, Option.bind_eq_bind, Option.bind_eq_some_iff] at h
  obtain ⟨name, hname, list, _, h⟩ := h
  constructor
  · rw [methodName?, Option.map_eq_some_iff] at hname
    obtain ⟨slot, hslot, _⟩ := hname
    rw [hslot]
    rfl
  · cases hreceiver : receiver? call with
    | none => rfl
    | some receiver =>
        rw [hreceiver] at h
        simp only [Option.bind_eq_some_iff] at h
        obtain ⟨owner, _, m', _, h⟩ := h
        cases h

/-- Attribution only adds what it finds out to a node. -/
theorem leave_attribution {symbols : SymbolTable} {n n' : Node} {cursor : Cursor}
    {context : Context}
    (h : ((attributionHooks symbols).visitor.leave n cursor context).1 = some n') :
    ∃ info, n' = { n with type? := some info } ∧
      ∀ m, info = .invocation m true →
        (methodNameSlot? n).isSome = true ∧ receiver? n = none := by
  simp only [Hooks.visitor, attributionHooks] at h
  split at h
  · split_ifs at h
    split at h
    · simp only [leaveClass] at h
      split at h
      · cases h
      · cases h
        exact ⟨_, rfl, nofun⟩
    · simp only [leaveMethod] at h
      split_ifs at h
      split at h
      · cases h
        exact ⟨_, rfl, nofun⟩
      · cases h
    · cases h
    · cases h
    · cases h
    · cases h
    · cases h
    · cases h
    · obtain ⟨info, hinfo, rfl⟩ := Option.map_eq_some_iff.1 h
      refine ⟨info, rfl, ?_⟩
      rintro m rfl
      exact unqualifiedCall_named hinfo
    · cases h
  · cases h

theorem untypedList_of_swept {es es' : List Element} {s s' : Context} {changed : Bool}
    (h : Swept Types es s es' changed s') : Node.untypedList es' = Node.untypedList es := by
  induction h with
  | nil => rfl
  | token _ ih => rw [Node.untypedList, Node.untypedList, ih]
  | node hn _ ih => rw [Node.untypedList, Node.untypedList, ih, Element.untyped, Element.untyped, hn.1]

theorem callShape_of_swept {es es' : List Element} {s s' : Context} {changed : Bool}
    (h : Swept Types es s es' changed s')
    (hes : ∀ c, Element.node c ∈ es → c.Everywhere fun m => m.type? = none) :
    ∀ c, Element.node c ∈ es' → c.Everywhere CallShape := by
  induction h with
  | nil => exact nofun
  | token _ ih =>
      intro c hc
      rcases List.mem_cons.1 hc with hc | hc
      · cases hc
      · exact ih (fun c hc => hes c (List.mem_cons_of_mem _ hc)) c hc
  | node hn _ ih =>
      intro c hc
      rcases List.mem_cons.1 hc with hc | hc
      · cases hc
        exact hn.2 (hes _ List.mem_cons_self)
      · exact ih (fun c hc => hes c (List.mem_cons_of_mem _ hc)) c hc

theorem leaves_attribution (symbols : SymbolTable) :
    (attributionHooks symbols).visitor.Leaves Types := by
  intro n cursor s s' es' changed hswept
  have huntyped := untypedList_of_swept hswept
  have hshape := callShape_of_swept hswept
  obtain ⟨kind, lead, children, markers, type?⟩ := n
  simp only at huntyped hshape hswept
  cases hleave : ((attributionHooks symbols).visitor.leave
      ⟨kind, lead, es', markers, type?⟩ cursor s').1 with
  | none =>
      simp only [hleave, Option.getD_none]
      refine ⟨by rw [Node.untyped, Node.untyped, huntyped], fun h => ?_⟩
      obtain ⟨hn, hchildren⟩ := everywhere_iff.1 h
      refine everywhere_iff.2 ⟨?_, hshape hchildren⟩
      rintro m _ hm
      cases hn.symm.trans hm
  | some n' =>
      obtain ⟨info, rfl, hinfo⟩ := leave_attribution hleave
      simp only [hleave, Option.getD_some]
      refine ⟨by rw [Node.untyped, Node.untyped, huntyped], fun h => ?_⟩
      obtain ⟨_, hchildren⟩ := everywhere_iff.1 h
      refine everywhere_iff.2 ⟨?_, hshape hchildren⟩
      intro m _ hm
      exact hinfo m (Option.some.inj hm)

theorem types_attributeUnit (symbols : SymbolTable) {unit : Node}
    (hkind : unit.kind = .java .compilationUnit) :
    (attributeUnit symbols unit).untyped = unit.untyped ∧
      ((unit.Everywhere fun m => m.type? = none) →
        (attributeUnit symbols unit).Everywhere CallShape) := by
  have haccepts : (attributionHooks symbols).visitor.accepts unit = true := by
    simp [Hooks.visitor, hkind]
  exact Visitor.walk_sweeps (fun _ _ _ => rfl) (leaves_attribution symbols) haccepts _

/-! ### Attributed units -/

theorem clauseShaped_of_untyped {n : Node} (h : n.untyped.Everywhere Shaped)
    (hkind : n.kind = .java .importClause) : ClauseShaped n := by
  obtain ⟨hn, hchildren⟩ := everywhere_iff.1 h
  obtain ⟨k, hk, _, hshape⟩ := hn.kind
  rw [kind_untyped, hkind] at hk
  cases hk
  obtain ⟨words, name, semicolon, hname, hes⟩ := hshape
  obtain ⟨hnamed, _⟩ := everywhere_iff.1 (hchildren name (by rw [hes]; simp))
  obtain ⟨k, hk, _, hqualified⟩ := hnamed.kind
  rw [hname] at hk
  cases hk
  rw [children_untyped, untypedList_eq_map] at hes
  obtain ⟨before, behind, hsplit, hbefore, hbehind⟩ := List.map_eq_append_iff.1 hes
  rw [← untypedList_eq_map] at hbefore
  obtain rfl := untypedList_eq_tokens hbefore
  obtain ⟨e, rest, rfl, he, hrest⟩ := List.map_eq_cons_iff.1 hbehind
  obtain ⟨e', rest', rfl, he', hrest'⟩ := List.map_eq_cons_iff.1 hrest
  obtain rfl := List.map_eq_nil_iff.1 hrest'
  cases e with
  | token t => cases he
  | node name' =>
      cases he
      cases e' with
      | node n' => cases he'
      | token t =>
          cases he'
          refine ⟨words, name', semicolon, (kind_untyped name').symm.trans hname, ?_, hsplit⟩
          obtain ⟨ts, hts, h | ⟨dot, star, hdot, hstar, h⟩⟩ := hqualified
          · rw [children_untyped] at h
            exact ⟨ts, hts, .inl (untypedList_eq_tokens h)⟩
          · rw [children_untyped] at h
            exact ⟨ts, hts, .inr ⟨dot, star, hdot, hstar, untypedList_eq_tokens h⟩⟩

theorem untyped_of_parseUnit {source : String} {unit : Node}
    (h : parseUnit source = .ok unit) : unit.Everywhere fun m => m.type? = none := by
  obtain ⟨hunit, _⟩ := unit_of_parseUnit h
  obtain ⟨items, last, hchildren, _, hitems⟩ := hunit.children
  refine everywhere_iff.2 ⟨hunit.untyped, fun c hc => ?_⟩
  rw [hchildren] at hc
  exact (hitems c (by simpa using hc)).1.imp fun _ => Shaped.untyped

theorem untyped_attributeUnit {source : String} {unit : Node}
    (h : parseUnit source = .ok unit) (symbols : SymbolTable) :
    (attributeUnit symbols unit).untyped = unit := by
  obtain ⟨hunit, _⟩ := unit_of_parseUnit h
  rw [(types_attributeUnit symbols hunit.kind).1, untyped_eq_self (untyped_of_parseUnit h)]

theorem clauseShaped_of_parseUnit {source : String} {unit clause : Node}
    (h : parseUnit source = .ok unit) (hclause : Element.node clause ∈ unit.children)
    (hkind : clause.kind = .java .importClause) : ClauseShaped clause := by
  obtain ⟨hunit, _⟩ := unit_of_parseUnit h
  obtain ⟨items, last, hchildren, _, hitems⟩ := hunit.children
  have huntyped : clause.untyped = clause :=
    untyped_eq_self ((everywhere_iff.1 (untyped_of_parseUnit h)).2 clause hclause)
  refine clauseShaped_of_untyped ?_ hkind
  rw [huntyped]
  rw [hchildren] at hclause
  exact (hitems clause (by simpa using hclause)).1

/-- Attribution makes an attributed unit of a parsed one, which still prints its text. -/
theorem attributed_of_parseUnit {source : String} {unit : Node}
    (h : parseUnit source = .ok unit) (symbols : SymbolTable) :
    Attributed (attributeUnit symbols unit) ∧ (attributeUnit symbols unit).print = source := by
  obtain ⟨hunit, _⟩ := unit_of_parseUnit h
  obtain ⟨items, last, hchildren, _, hitems⟩ := hunit.children
  have hnone := untyped_of_parseUnit h
  have huntyped := untyped_attributeUnit h symbols
  have hcalls := (types_attributeUnit symbols hunit.kind).2 hnone
  generalize attributeUnit symbols unit = u at huntyped hcalls
  have hshaped : ∀ c, Element.node c ∈ u.children → c.untyped.Everywhere Shaped := by
    intro c hc
    have hmem := mem_untypedList hc
    rw [← children_untyped, huntyped, hchildren] at hmem
    exact (hitems c.untyped (by simpa using hmem)).1
  refine ⟨⟨?_, ?_, (everywhere_iff.1 hcalls).2, ?_⟩, ?_⟩
  · rw [← kind_untyped, huntyped, hunit.kind]
  · intro c hc m hm
    obtain ⟨k, hk, hne, _⟩ := (hshaped c hc m.untyped (mem_preorder_untyped hm)).kind
    rw [← kind_untyped, hk]
    exact fun h => hne (Tree.Kind.java.inj h)
  · exact fun c hc hkind => clauseShaped_of_untyped (hshaped c hc) hkind
  · rw [← print_untyped, huntyped, print_of_parseUnit h]

end Codemod.Java
