import Codemod.Java.Attribution
import Codemod.Proofs.Java.Respelling

/-!
The classes that a unit declares, and the members in their bodies. They stand in the tree of the
unit, and a map that changes nothing but names of methods maps them one by one.
-/

namespace Codemod.Java

open Codemod.Tree

section
variable {package : String} {outer : List String} {n : Node}

theorem declaredClassesList_cons (e : Element) (es : List Element) :
    declaredClassesList package outer (e :: es) =
      declaredClassesElement package outer e ++ declaredClassesList package outer es :=
  rfl

theorem declaredClassesList_eq_flatMap (es : List Element) :
    declaredClassesList package outer es = es.flatMap (declaredClassesElement package outer) := by
  induction es with
  | nil => rfl
  | cons e es ih => rw [declaredClassesList_cons, ih, List.flatMap_cons]

theorem mem_declaredClassesList {es : List Element} {d : DeclaredClass} :
    d ∈ declaredClassesList package outer es ↔
      ∃ c, Element.node c ∈ es ∧ d ∈ declaredClasses package outer c := by
  rw [declaredClassesList_eq_flatMap, List.mem_flatMap]
  constructor
  · rintro ⟨e, he, hd⟩
    cases e with
    | token t => cases hd
    | node c => exact ⟨c, he, hd⟩
  · rintro ⟨c, hc, hd⟩
    exact ⟨.node c, hc, hd⟩

theorem declaredClasses_of_class (hkind : n.kind = .java .classDeclaration) :
    declaredClasses package outer n =
      match className? n with
      | some simple =>
          ⟨qualify (outer.head?.getD package) simple, outer, n⟩ ::
            declaredClassesList package (qualify (outer.head?.getD package) simple :: outer)
              n.children
      | none => [] := by
  obtain ⟨kind, lead, children, markers, type?⟩ := n
  cases hkind
  rfl

theorem declaredClasses_class {simple : String} (hkind : n.kind = .java .classDeclaration)
    (hname : className? n = some simple) :
    declaredClasses package outer n =
      ⟨qualify (outer.head?.getD package) simple, outer, n⟩ ::
        declaredClassesList package (qualify (outer.head?.getD package) simple :: outer)
          n.children := by
  rw [declaredClasses_of_class hkind, hname]

theorem declaredClasses_body (hbody : isBody n = true) :
    declaredClasses package outer n = declaredClassesList package outer n.children := by
  obtain ⟨kind, lead, children, markers, type?⟩ := n
  simp only [isBody, Bool.or_eq_true, beq_iff_eq] at hbody
  rcases hbody with rfl | rfl <;> rfl

theorem declaredClasses_other (hclass : n.kind ≠ .java .classDeclaration)
    (hbody : isBody n = false) : declaredClasses package outer n = [] := by
  obtain ⟨kind, lead, children, markers, type?⟩ := n
  simp only [isBody, Bool.or_eq_false_iff, beq_eq_false_iff_ne, ne_eq] at hclass hbody
  rw [declaredClasses]
  · rintro h rfl
    exact absurd rfl hclass
  · rintro h rfl
    exact absurd rfl hbody.1
  · rintro h rfl
    exact absurd rfl hbody.2

theorem of_mem_declaredClasses {d : DeclaredClass} (hd : d ∈ declaredClasses package outer n) :
    (∃ simple, className? n = some simple ∧
        (d = ⟨qualify (outer.head?.getD package) simple, outer, n⟩ ∨
          d ∈ declaredClassesList package (qualify (outer.head?.getD package) simple :: outer)
            n.children)) ∨
      d ∈ declaredClassesList package outer n.children := by
  by_cases hclass : n.kind = .java .classDeclaration
  · cases hname : className? n with
    | none =>
        rw [declaredClasses_of_class hclass, hname] at hd
        cases hd
    | some simple =>
        rw [declaredClasses_class hclass hname] at hd
        exact .inl ⟨simple, rfl, List.mem_cons.1 hd⟩
  · cases hbody : isBody n with
    | false =>
        rw [declaredClasses_other hclass hbody] at hd
        cases hd
    | true => exact .inr (declaredClasses_body hbody ▸ hd)

theorem mem_preorder_of_declared {d : DeclaredClass} (hd : d ∈ declaredClasses package outer n) :
    d.node ∈ n.preorder := by
  induction n using Node.induction_on generalizing outer with
  | step n ih =>
      have hbelow : ∀ outer, d ∈ declaredClassesList package outer n.children →
          d.node ∈ n.preorder := by
        intro outer hd
        obtain ⟨c, hc, hd⟩ := mem_declaredClassesList.1 hd
        exact mem_preorder.2 (.inr ⟨c, hc, ih c hc hd⟩)
      rcases of_mem_declaredClasses hd with ⟨simple, _, rfl | hd⟩ | hd
      · exact mem_preorder_self n
      · exact hbelow _ hd
      · exact hbelow _ hd

theorem mem_preorder_of_member {member : Node} (h : member ∈ members n) : member ∈ n.preorder := by
  obtain ⟨body, hbody, hmember⟩ := List.mem_flatMap.1 h
  have hbody := mem_childNodes.1 (List.mem_filter.1 hbody).1
  exact mem_preorder.2 (.inr ⟨body, hbody, mem_preorder.2
    (.inr ⟨member, mem_childNodes.1 hmember, mem_preorder_self member⟩)⟩)

end

namespace DeclaredClass

/-- The scope inside a declared class. -/
def inside (scope : Scope) (c : DeclaredClass) : Scope :=
  { scope with classes := c.name :: c.outer }

/-- The declared class with another node in place of its declaration. -/
def mapNode (φ : Node → Node) (c : DeclaredClass) : DeclaredClass :=
  { c with node := φ c.node }

end DeclaredClass

theorem addMember_name (scope : Scope) (c : ClassSymbol) (member : Node) :
    (c.addMember scope member).name = c.name := by
  rw [ClassSymbol.addMember]
  split <;> rfl

namespace Respelling

variable {φ : Node → Node} (h : Respelling φ)
include h

theorem members (n : Node) : Java.members (φ n) = (Java.members n).map φ := by
  rw [Java.members, Java.members, h.childNodes, List.filter_map, List.flatMap_map, List.map_flatMap]
  congr 1
  · exact funext h.childNodes
  · congr 1
    funext c
    simp [h.kind]

omit h in
theorem declaredClassesList_mapNode {es : List Element} {package : String} {outer : List String}
    (hes : ∀ c, Element.node c ∈ es → Java.declaredClasses package outer (φ c) =
      (Java.declaredClasses package outer c).map (DeclaredClass.mapNode φ)) :
    declaredClassesList package outer (es.map (Element.mapNode φ)) =
      (declaredClassesList package outer es).map (DeclaredClass.mapNode φ) := by
  induction es with
  | nil => rfl
  | cons e es ih =>
      rw [List.map_cons, declaredClassesList_cons, declaredClassesList_cons, List.map_append,
        ih fun c hc => hes c (List.mem_cons_of_mem _ hc)]
      congr 1
      cases e with
      | token t => rfl
      | node c => exact hes c List.mem_cons_self

theorem declaredClasses {n : Node} (hregular : n.Everywhere Regular) (package : String)
    (outer : List String) :
    Java.declaredClasses package outer (φ n) =
      (Java.declaredClasses package outer n).map (DeclaredClass.mapNode φ) := by
  induction n using Node.induction_on generalizing outer with
  | step n ih =>
      obtain ⟨hn, hbelow⟩ := everywhere_iff.1 hregular
      have hlist : ∀ outer, declaredClassesList package outer (n.children.map (Element.mapNode φ)) =
          (declaredClassesList package outer n.children).map (DeclaredClass.mapNode φ) :=
        fun outer => declaredClassesList_mapNode fun c hc => ih c hc (hbelow c hc) outer
      by_cases hclass : n.kind = .java .classDeclaration
      · have hnameless : IsNameless n.kind := by
          rw [hclass]
          rfl
        obtain ⟨simple, hname⟩ := Option.isSome_iff_exists.1 (hn.className hclass)
        rw [declaredClasses_class hclass hname,
          declaredClasses_class (n := φ n) (h.kind n ▸ hclass) ((h.className hnameless).trans hname),
          h.children_of_nameless hnameless, hlist]
        rfl
      · have hsame : isBody (φ n) = isBody n := by rw [isBody, isBody, h.kind]
        cases hbody : isBody n with
        | false =>
            rw [declaredClasses_other hclass hbody,
              declaredClasses_other (n := φ n) (h.kind n ▸ hclass) (hsame.trans hbody)]
            rfl
        | true =>
            have hnameless : IsNameless n.kind := by
              simp only [isBody, Bool.or_eq_true, beq_iff_eq] at hbody
              rcases hbody with hbody | hbody <;> · rw [hbody]; rfl
            rw [declaredClasses_body hbody, declaredClasses_body (n := φ n) (hsame.trans hbody),
              h.children_of_nameless hnameless, hlist]

theorem unitClasses {unit : Node} (hregular : unit.Everywhere Regular)
    (hnameless : IsNameless unit.kind) :
    Java.unitClasses (φ unit) = (Java.unitClasses unit).map (DeclaredClass.mapNode φ) := by
  rw [Java.unitClasses, Java.unitClasses, h.packageOf hregular, h.children_of_nameless hnameless]
  exact declaredClassesList_mapNode fun c hc =>
    h.declaredClasses ((everywhere_iff.1 hregular).2 c hc) _ _

theorem supertypeTrees (n : Node) :
    Java.supertypeTrees (φ n) = (Java.supertypeTrees n).map φ := by
  rw [Java.supertypeTrees, Java.supertypeTrees, h.childNodes, List.filter_map, List.flatMap_map,
    List.map_flatMap]
  congr 1
  · exact funext h.childNodes
  · congr 1
    funext c
    simp [h.kind]

omit h in
theorem nameless_supertype {n t : Node} (hregular : n.Everywhere Regular)
    (ht : t ∈ Java.supertypeTrees n) : IsNameless t.kind := by
  obtain ⟨clause, hclause, ht⟩ := List.mem_flatMap.1 ht
  obtain ⟨hclause, hkind⟩ := List.mem_filter.1 hclause
  have hregular := (everywhere_iff.1 ((everywhere_iff.1 hregular).2 clause
    (mem_childNodes.1 hclause))).1
  simp only [Bool.or_eq_true, beq_iff_eq] at hkind
  rcases hkind with hkind | hkind
  · exact hregular.items .extendsClause (by simp [itemLists]) hkind t ht
  · exact hregular.items .implementsClause (by simp [itemLists]) hkind t ht

theorem addMember {inside : Scope} {g : Signature → Signature} {c : ClassSymbol} {member : Node}
    (hregular : member.Everywhere Regular)
    (hmethod : member.kind = .java .methodDeclaration → inside.method? (φ member) c.name =
      (inside.method? member c.name).map g) :
    ClassSymbol.addMember inside { c with methods := c.methods.map g } (φ member) =
      { c.addMember inside member with methods := (c.addMember inside member).methods.map g } := by
  rw [ClassSymbol.addMember, ClassSymbol.addMember, h.kind]
  split
  · rename_i hkind
    simp only [hmethod hkind, List.map_append]
    cases inside.method? member c.name <;> rfl
  · have hvariables : inside.declaredVariables (φ member) (fun _ => TypeRef.unknown) =
        inside.declaredVariables member fun _ => TypeRef.unknown :=
      h.declaredVariables inside hregular fun _ _ => rfl
    simp only [hvariables]
  · rename_i hkind
    have hitems := (everywhere_iff.1 hregular).1.items .enumConstants (by simp [itemLists]) hkind
    have hconstants : (φ member).childNodes.filterMap firstIdentifier? =
        member.childNodes.filterMap firstIdentifier? := by
      rw [h.childNodes, List.filterMap_map]
      refine List.filterMap_congr fun constant hconstant => ?_
      exact h.className (hitems constant hconstant)
    simp only [hconstants]
  · rfl

theorem symbol {scope : Scope} {g : Signature → Signature} {d : DeclaredClass}
    (hregular : d.node.Everywhere Regular)
    (hmethods : ∀ member ∈ Java.members d.node, member.kind = .java .methodDeclaration →
      (d.inside scope).method? (φ member) d.name =
        ((d.inside scope).method? member d.name).map g) :
    (d.mapNode φ).symbol scope =
      { d.symbol scope with methods := (d.symbol scope).methods.map g } := by
  have hfold : ∀ (nodes : List Node), (∀ member ∈ nodes, member.Everywhere Regular) →
      (∀ member ∈ nodes, member.kind = .java .methodDeclaration →
        (d.inside scope).method? (φ member) d.name =
          ((d.inside scope).method? member d.name).map g) →
      ∀ c : ClassSymbol, c.name = d.name →
        (nodes.map φ).foldl (ClassSymbol.addMember (d.inside scope))
            { c with methods := c.methods.map g } =
          let c' := nodes.foldl (ClassSymbol.addMember (d.inside scope)) c
          { c' with methods := c'.methods.map g } := by
    intro nodes
    induction nodes with
    | nil => exact fun _ _ _ _ => rfl
    | cons member nodes ih =>
        intro hnodes hsame c hc
        rw [List.map_cons, List.foldl_cons, List.foldl_cons,
          h.addMember (hnodes member List.mem_cons_self)
            fun hkind => hc ▸ hsame member List.mem_cons_self hkind]
        refine ih (fun m hm => hnodes m (List.mem_cons_of_mem _ hm))
          (fun m hm => hsame m (List.mem_cons_of_mem _ hm)) _ ?_
        rw [addMember_name, hc]
  have hsupertypes : (Java.supertypeTrees (φ d.node)).filterMap
      (fun t => ((d.inside scope).resolveTree t).className?) =
        (Java.supertypeTrees d.node).filterMap
          fun t => ((d.inside scope).resolveTree t).className? := by
    rw [h.supertypeTrees, List.filterMap_map]
    refine List.filterMap_congr fun t ht => ?_
    rw [Function.comp_apply, h.resolveTree _ (nameless_supertype hregular ht)]
  have hmembers : ∀ member ∈ Java.members d.node, member.Everywhere Regular :=
    fun member hmember m hm => hregular m (mem_preorder_trans hm (mem_preorder_of_member hmember))
  show (Java.members (φ d.node)).foldl (ClassSymbol.addMember (d.inside scope))
    { name := d.name
      supertypes := (Java.supertypeTrees (φ d.node)).filterMap fun t =>
        ((d.inside scope).resolveTree t).className? } = _
  rw [h.members, hsupertypes]
  exact hfold _ hmembers hmethods { name := d.name, supertypes := _ } rfl

end Respelling

theorem mem_preorder_of_unitClasses {unit : Node} {d : DeclaredClass} (hd : d ∈ unitClasses unit) :
    d.node ∈ unit.preorder := by
  obtain ⟨c, hc, hd⟩ := mem_declaredClassesList.1 hd
  exact mem_preorder.2 (.inr ⟨c, hc, mem_preorder_of_declared hd⟩)

theorem Respelling.unitSymbols {φ : Node → Node} (h : Respelling φ) {unit : Node}
    (hregular : unit.Everywhere Regular) (hnameless : IsNameless unit.kind) {known : List String}
    {g : Signature → Signature}
    (hmethods : ∀ d ∈ Java.unitClasses unit, ∀ member ∈ Java.members d.node,
      member.kind = .java .methodDeclaration →
        (d.inside (.ofUnit unit known)).method? (φ member) d.name =
          ((d.inside (.ofUnit unit known)).method? member d.name).map g) :
    Java.unitSymbols known (φ unit) =
      (Java.unitSymbols known unit).map fun c => { c with methods := c.methods.map g } := by
  rw [Java.unitSymbols, Java.unitSymbols, h.unitClasses hregular hnameless, h.ofUnit hregular,
    List.map_map, List.map_map]
  refine List.map_congr_left fun d hd => ?_
  have hbelow : d.node.Everywhere Regular :=
    fun m hm => hregular m (mem_preorder_trans hm (mem_preorder_of_unitClasses hd))
  exact h.symbol hbelow (hmethods d hd)

end Codemod.Java
