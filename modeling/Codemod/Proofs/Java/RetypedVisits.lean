import Codemod.Proofs.Java.Frames
import Codemod.Proofs.Java.Retyping
import Codemod.Proofs.Java.Signatures

/-!
Units that differ in the type of one local variable declaration. They declare the same classes with
the same members, and so have the same symbols. Where the declaration has the same effect with either
type, attribution finds out the same about both.
-/

namespace Codemod.Java

open Codemod.Tree

/-! ### Symbols -/

namespace Retyped

variable {n n' : Node} (h : Retyped n n')
include h

theorem filter_names {p : Node → Bool} (hp : ∀ c c' : Node, c'.kind = c.kind → p c' = p c)
    (hname : ∀ c k, c.kind = .java k → k.isName = false → p c = false) :
    n'.childNodes.filter p = n.childNodes.filter p := by
  obtain ⟨c, c', before, behind, hnodes, hnodes', hkind, hc⟩ := h.childNodes
  have hother : p c = false := by
    rcases hc with ⟨hvariable, -⟩ | hc
    · exact hname c _ hvariable rfl
    · obtain ⟨k, hk⟩ := hc.braced.java
      exact hname c k hk (hc.not_isName hk)
  have hother' : p c' = false := (hp c c' hkind).trans hother
  simp [hnodes, hnodes', hother, hother']

theorem supertypeTrees : supertypeTrees n' = supertypeTrees n := by
  rw [Java.supertypeTrees, Java.supertypeTrees, h.filter_names (fun c c' hkind => by rw [hkind])]
  intro c k hk hname
  rw [hk]
  cases k <;> first | rfl | cases hname

theorem members : List.Forall₂ Near (members n) (members n') := by
  obtain ⟨c, c', before, behind, hnodes, hnodes', hkind, hc⟩ := h.childNodes
  have hbody : isBody c' = isBody c := by rw [isBody, isBody, hkind]
  show List.Forall₂ Near ((n.childNodes.filter isBody).flatMap Node.childNodes)
    ((n'.childNodes.filter isBody).flatMap Node.childNodes)
  rw [hnodes, hnodes', List.filter_append, List.filter_append, List.filter_cons, List.filter_cons,
    hbody, List.flatMap_append, List.flatMap_append]
  refine List.rel_append (forall₂_near _) ?_
  cases hisBody : isBody c with
  | false => exact forall₂_near _
  | true =>
      have hc : Retyped c c' := hc.resolve_left fun hvariable => by
        simp [isBody, hvariable.1] at hisBody
      refine List.rel_append (hc.children_near fun k hk => ?_) (forall₂_near _)
      rw [isBody, hk] at hisBody
      cases k <;> first | decide | simp at hisBody

theorem addMember (inside : Scope) (s : ClassSymbol) :
    s.addMember inside n' = s.addMember inside n := by
  have hvariables : inside.declaredVariables n' (fun _ => TypeRef.unknown) =
      inside.declaredVariables n fun _ => TypeRef.unknown :=
    h.declaredVariables inside fun _ _ _ _ => rfl
  rw [ClassSymbol.addMember, ClassSymbol.addMember, h.kind, h.method]
  split
  · rfl
  · simp only [hvariables]
  · rename_i hkind
    have hnear := h.children_near fun k hk => by
      cases hkind.symm.trans hk
      decide
    have hmap := map_near hnear fun _ _ hc => hc.firstIdentifier
    have hconstants : n'.childNodes.filterMap firstIdentifier? =
        n.childNodes.filterMap firstIdentifier? := by
      simpa only [List.filterMap_map, Function.id_comp] using
        congrArg (fun os => List.filterMap id os) hmap
    simp only [hconstants]
  · rfl

end Retyped

/-- Both are declared classes of one name at one place, and the declarations are the same but for a
local variable. -/
structure SameClass (d d' : DeclaredClass) : Prop where
  name : d'.name = d.name
  outer : d'.outer = d.outer
  near : Near d.node d'.node

theorem SameClass.symbol {d d' : DeclaredClass} (h : SameClass d d') (scope : Scope) :
    d'.symbol scope = d.symbol scope := by
  obtain ⟨name, outer, node⟩ := d
  obtain ⟨name', outer', node'⟩ := d'
  obtain ⟨rfl, rfl, hnear⟩ := h
  rcases hnear with rfl | hnear
  · rfl
  have hfold : ∀ {ms ms' : List Node}, List.Forall₂ Near ms ms' → ∀ (inside : Scope) (s : ClassSymbol),
      ms'.foldl (ClassSymbol.addMember inside) s = ms.foldl (ClassSymbol.addMember inside) s := by
    intro ms ms' hms
    induction hms with
    | nil => exact fun _ _ => rfl
    | cons hm _ ih =>
        intro inside s
        rw [List.foldl_cons, List.foldl_cons, ih]
        rcases hm with rfl | hm
        · rfl
        · rw [hm.addMember]
  rw [DeclaredClass.symbol, DeclaredClass.symbol, hnear.supertypeTrees, hfold hnear.members]

section
variable {package : String}

theorem forall₂_sameClass (ds : List DeclaredClass) : List.Forall₂ SameClass ds ds :=
  List.forall₂_same.2 fun _ _ => ⟨rfl, rfl, .inl rfl⟩

theorem forall₂_declaredList {c c' : Node} {outer : List String} (before behind : List Element)
    (hc : List.Forall₂ SameClass (declaredClasses package outer c) (declaredClasses package outer c')) :
    List.Forall₂ SameClass (declaredClassesList package outer (before ++ .node c :: behind))
      (declaredClassesList package outer (before ++ .node c' :: behind)) := by
  rw [declaredClassesList_eq_flatMap, declaredClassesList_eq_flatMap, List.flatMap_append,
    List.flatMap_append, List.flatMap_cons, List.flatMap_cons]
  exact List.rel_append (forall₂_sameClass _) (List.rel_append hc (forall₂_sameClass _))

theorem Retyped.declaredClasses {n n' : Node} (h : Retyped n n') (outer : List String) :
    List.Forall₂ SameClass (declaredClasses package outer n) (declaredClasses package outer n') := by
  induction h generalizing outer with
  | @here n d d' before behind hn hlocal hd hd' hchildren =>
      obtain ⟨k, hk⟩ := hn.java
      have hstatement := hn.around_variable (by simp [hchildren]) hd hlocal hk
      have hclass : n.kind ≠ .java .classDeclaration := by
        rw [hk]
        rintro ⟨⟩
        simp [Kind.branches] at hstatement
      rw [declaredClasses_other hclass hlocal,
        declaredClasses_other (n := { n with children := before ++ .node d' :: behind }) hclass hlocal]
      exact .nil
  | @inside n c c' before behind hn hc hchildren ih =>
      have hlist : ∀ outer, List.Forall₂ SameClass (declaredClassesList package outer n.children)
          (declaredClassesList package outer (before ++ .node c' :: behind)) := by
        intro outer
        rw [hchildren]
        exact forall₂_declaredList before behind (ih outer)
      have h := Retyped.inside hn hc hchildren
      by_cases hclass : n.kind = .java .classDeclaration
      · have hname : className? { n with children := before ++ .node c' :: behind } = className? n :=
          h.firstIdentifier
        rw [declaredClasses_of_class hclass, declaredClasses_of_class
          (n := { n with children := before ++ .node c' :: behind }) hclass, hname]
        cases className? n with
        | none => exact .nil
        | some simple => exact .cons ⟨rfl, rfl, .inr h⟩ (hlist _)
      · cases hbody : isBody n with
        | false =>
            rw [declaredClasses_other hclass hbody, declaredClasses_other
              (n := { n with children := before ++ .node c' :: behind }) hclass hbody]
            exact .nil
        | true =>
            rw [declaredClasses_body hbody, declaredClasses_body
              (n := { n with children := before ++ .node c' :: behind }) hbody]
            exact hlist outer

end

/-! ### Units -/

section
variable {unit unit' : Node} (h : Retyped unit unit')
include h

theorem Retyped.packageOf : packageOf unit' = packageOf unit := by
  rw [Java.packageOf, Java.packageOf, h.firstChild_name rfl]

theorem Retyped.ofUnit (known : List String) : Scope.ofUnit unit' known = Scope.ofUnit unit known := by
  rw [Scope.ofUnit, Scope.ofUnit, h.packageOf, h.filter_names (fun c c' hkind => by rw [hkind])]
  intro c k hk hname
  rw [hk]
  cases k <;> first | rfl | cases hname

theorem Retyped.unitClasses : List.Forall₂ SameClass (unitClasses unit) (unitClasses unit') := by
  obtain ⟨c, c', before, behind, hchildren, hunit', hkind, hc⟩ := h.exists_child
  rw [Java.unitClasses, Java.unitClasses, h.packageOf, hchildren, hunit']
  refine forall₂_declaredList before behind ?_
  rcases hc with ⟨hvariable, -⟩ | hc
  · have hnone : ∀ d : Node, d.kind = .java .variableDeclaration →
        Java.declaredClasses (Java.packageOf unit) [] d = [] := fun d hd =>
      declaredClasses_other (by rw [hd]; decide) (by rw [isBody, hd]; rfl)
    rw [hnone c hvariable, hnone c' (hkind.trans hvariable)]
    exact .nil
  · exact hc.declaredClasses []

theorem Retyped.unitSymbols (known : List String) :
    unitSymbols known unit' = unitSymbols known unit := by
  have hclasses := h.unitClasses
  rw [Java.unitSymbols, Java.unitSymbols, h.ofUnit]
  generalize Scope.ofUnit unit known = scope, Java.unitClasses unit = ds,
    Java.unitClasses unit' = ds' at hclasses ⊢
  induction hclasses with
  | nil => rfl
  | cons hd _ ih => rw [List.map_cons, List.map_cons, ih, hd.symbol]

theorem Retyped.ofUnits (front back : List Node) :
    SymbolTable.ofUnits (front ++ unit' :: back) = SymbolTable.ofUnits (front ++ unit :: back) := by
  have hknown : knownClasses (front ++ unit' :: back) = knownClasses (front ++ unit :: back) := by
    rw [← names_symbols [], ← names_symbols [], List.flatMap_append, List.flatMap_append,
      List.flatMap_cons, List.flatMap_cons, h.unitSymbols]
  rw [SymbolTable.ofUnits, SymbolTable.ofUnits, hknown, List.flatMap_append, List.flatMap_append,
    List.flatMap_cons, List.flatMap_cons, h.unitSymbols]

end

/-! ### Attribution around a declaration -/

theorem braced_untyped {n : Node} : Braced n.untyped ↔ Braced n := by
  have hbody : isBody n.untyped = isBody n := by rw [isBody, isBody, kind_untyped]
  have htoken : n.untyped.hasToken "\x7b" = n.hasToken "\x7b" := by
    rw [Node.hasToken, Node.hasToken, tokens_untyped]
  constructor
  · rintro ⟨hjava, hnested, hbrace⟩
    rw [kind_untyped] at hjava hbrace
    rw [hbody, htoken] at hbrace
    exact ⟨hjava, nested_node_untyped.1 hnested, hbrace⟩
  · rintro ⟨hjava, hnested, hbrace⟩
    refine ⟨by rwa [kind_untyped], nested_node_untyped.2 hnested, ?_⟩
    rwa [kind_untyped, hbody, htoken]

theorem braced_of_parseUnit {source : String} {unit : Node} (h : parseUnit source = .ok unit) :
    unit.Everywhere Braced := by
  have hnested := nested_of_parseUnit h
  intro n hn
  obtain ⟨cursor, hstands⟩ := exists_stands hn
  obtain ⟨k, hk, -⟩ := exists_holds hnested (unit_of_parseUnit h).1.kind hstands
  have hshape := formed_of_parseUnit h n hn
  refine ⟨⟨k, hk⟩, hnested n hn, fun hbrace => ?_⟩
  simp only [isBody, Bool.or_eq_true, beq_iff_eq] at hbrace
  rcases hbrace with hblock | hbody | hbody
  · obtain ⟨items, henclosed⟩ := hshape _ hblock
    exact (childNodes_of_enclosed henclosed).2
  · obtain ⟨items, henclosed⟩ := hshape _ hbody
    exact (childNodes_of_enclosed henclosed).2
  · obtain ⟨constants, items, -, -, henclosed⟩ := hshape _ hbody
    exact (childNodes_of_enclosed henclosed).2

theorem Braced.withType {n : Node} (h : Braced n) (found : Option TypeInfo) :
    Braced { n with type? := found } := by
  have hsame : ({ n with type? := found } : Node).untyped = n.untyped := by
    cases n
    rfl
  exact braced_untyped.1 (hsame ▸ braced_untyped.2 h)

/-- One local variable declaration is another one in the second tree, or both trees are around it. -/
def Swapped (cursor : Cursor) (n m : Node) : Prop :=
  (n.kind = .java .variableDeclaration ∧ m.kind = .java .variableDeclaration ∧
    ∃ parent, cursor.parent? = some parent ∧ isBody parent = false) ∨ Retyped n m

theorem Swapped.parent {parent n m : Node} {index : Nat} {rest : Cursor} {before behind : List Element}
    (h : Swapped (⟨parent, index⟩ :: rest) n m) {p : Node} (hp : Braced p) (hkind : p.kind = parent.kind)
    (hchildren : p.children = before ++ .node n :: behind) :
    Retyped p { p with children := before ++ .node m :: behind } := by
  rcases h with ⟨hn, hm, _, ⟨⟩, hlocal⟩ | h
  · exact .here hp (by rwa [isBody, hkind, ← isBody]) hn hm hchildren
  · exact .inside hp h hchildren

section
variable {symbols : SymbolTable} (hbrace : ∀ c ∈ symbols.classes, '\x7b' ∉ c.name.toList)
  {root : Node} (hroot : root.Everywhere fun m => Braced m ∧ m.type? = none) {s : Context}
include hbrace hroot

theorem visits_plug {cursor : Cursor} {n n' m m' : Node} {t t' : Context}
    (hreaches : (attributionHooks symbols).visitor.Reaches root s cursor n t)
    (hn : (attributionHooks symbols).visitor.Visits cursor n t n' t')
    (hm : (attributionHooks symbols).visitor.Visits cursor m t m' t')
    (h : Swapped cursor n m) (h' : Swapped cursor n' m') :
    ∃ root' s' cursor', (attributionHooks symbols).visitor.Visits [] root s root' s' ∧
      Stands root' cursor' n' ∧ cursor'.map Frame.index = cursor.map Frame.index ∧
      (attributionHooks symbols).visitor.Visits [] (cursor.plug m) s (cursor'.plug m') s' ∧
      Retyped root (cursor.plug m) := by
  induction hreaches generalizing n' m m' t' with
  | root =>
      refine ⟨n', t', [], hn, .root, rfl, hm, h.resolve_left ?_⟩
      rintro ⟨_, _, _, ⟨⟩, _⟩
  | @child cursor parent n before before' behind u t changed hparent hchildren hbefore ih =>
      obtain ⟨hbraced, hnone⟩ := hroot parent hparent.stands.mem
      obtain ⟨behind', others, w, hbehind⟩ :=
        Visitor.exists_swept (enter_keeps symbols) parent cursor behind (before.length + 1) t'
      -- The parent as it is visited, and the one with the other node in it.
      obtain ⟨swept, hall⟩ := Visitor.swept_around hchildren hbefore hn hbehind
      let v : Node := { parent with children := before' ++ .node n' :: behind' }
      have hbracedv : Braced v := braced_untyped.1 (untyped_of_swept hall ▸ braced_untyped.2 hbraced)
      let p : Node := { parent with children := before ++ .node m :: behind }
      have hp : Retyped parent p := h.parent hbraced rfl hchildren
      have hbefore' : SweptAt (attributionHooks symbols).visitor.Visiting p cursor 0 before
          (u.enter p) before' changed t := by
        rw [hp.enter u]
        exact swept_kind hp.kind hbefore
      obtain ⟨swept', hall'⟩ := Visitor.swept_around (show p.children = _ from rfl) hbefore'
        (visits_kind hp.kind hm) (swept_kind hp.kind hbehind)
      -- What attribution finds out about both when it leaves them is the same.
      let q : Node := { p with children := before' ++ .node m' :: behind' }
      have hq : Retyped v q := h'.parent hbracedv rfl rfl
      obtain ⟨hfound, hstate⟩ := hq.leave hbrace cursor w
      have hvisits := visits_left hnone hall
      have hvisits' : (attributionHooks symbols).visitor.Visits cursor p u
          { q with type? := found? symbols q cursor w }
          ((attributionHooks symbols).visitor.leave q cursor w).2 := visits_left (n := p) hnone hall'
      rw [hfound, hstate] at hvisits'
      obtain ⟨root', s', cursor', hroot', hstands, hindex, hplug, hretyped⟩ :=
        ih hvisits hvisits' (.inr hp) (.inr (h'.parent (hbracedv.withType _) rfl rfl))
      refine ⟨root', s', _, hroot', hstands.child rfl, ?_, ?_, ?_⟩
      · rw [List.map_cons, List.map_cons, hindex, hbefore.length]
      · rw [Cursor.plug, Cursor.plug, withChild_split m hchildren, withChild_split m' rfl]
        exact hplug
      · rw [Cursor.plug, withChild_split m hchildren]
        exact hretyped

end

theorem plug_untyped (cursor : Cursor) (n : Node) :
    (cursor.plug n).untyped = cursor.untyped.plug n.untyped := by
  induction cursor generalizing n with
  | nil => rfl
  | cons frame rest ih =>
      have hchild : (frame.node.withChild frame.index (.node n)).untyped =
          frame.node.untyped.withChild frame.index (.node n.untyped) := by
        obtain ⟨⟨kind, lead, children, markers, type?⟩, index⟩ := frame
        simp only [Node.withChild, Node.untyped, untypedList_eq_map, List.map_set, Element.untyped]
      rw [Cursor.plug, ih, hchild]
      rfl

theorem attributeUnit_of_visits {symbols : SymbolTable} {unit unit' : Node} {s : Context}
    (hunit : unit.kind = .java .compilationUnit)
    (h : (attributionHooks symbols).visitor.Visits [] unit (.atUnit symbols unit) unit' s) :
    attributeUnit symbols unit = unit' :=
  Visitor.walk_of_visits (by simp [Hooks.visitor, hunit]) h

/-! ### Type trees -/

theorem idle_of_isName {n : Node} (hnested : n.Everywhere Nested) {k : Kind} (hk : n.kind = .java k)
    (hname : k.isName = true) : n.Everywhere fun m => acts m.kind = false := by
  induction n using Node.induction_on generalizing k with
  | step n ih =>
      obtain ⟨hn, hbelow⟩ := everywhere_iff.1 hnested
      have hidle : ∀ k : Kind, k.isName = true → acts (.java k) = false := by
        intro k
        cases k <;> decide
      refine everywhere_iff.2 ⟨by rw [hk, hidle k hname], fun c hc => ?_⟩
      obtain ⟨_, hheld, hkind⟩ := hn k hk c hc
      exact ih c hc (hbelow c hc) hkind (isName_of_holds hheld hname)

/-- The node with another type tree in place of its first one. -/
def retype (d tree : Node) : Node :=
  match d.positionOf? (.java .typeTree) with
  | some index => d.withChild index (.node tree)
  | none => d

theorem kind_retype (d tree : Node) : (retype d tree).kind = d.kind := by
  rw [retype]
  split <;> rfl

/-- No type tree is among the children. -/
def Typeless (es : List Element) : Prop :=
  ∀ e ∈ es, e.node?.any (fun c => c.kind == .java .typeTree) = false

theorem exists_typeTree {d tree : Node} (h : d.firstChild? (.java .typeTree) = some tree) :
    tree.kind = .java .typeTree ∧
      ∃ front back, d.children = front ++ .node tree :: back ∧ Typeless front := by
  rw [Node.firstChild?, Node.childNodes, List.find?_filterMap] at h
  obtain ⟨e, hfound, he⟩ := Option.bind_eq_some_iff.1 h
  obtain ⟨hkind, front, back, hchildren, hfront⟩ := List.find?_eq_some_iff_append.1 hfound
  cases e with
  | token t => cases he
  | node c =>
      cases he
      exact ⟨by simpa [Element.node?] using hkind, front, back, hchildren,
        fun e he => by simpa using hfront e he⟩

section
variable {d tree tree' : Node} {front back : List Element}
  (hchildren : d.children = front ++ .node tree :: back) (hkind : tree.kind = .java .typeTree)
  (hfront : Typeless front)
include hchildren hkind hfront

theorem retype_split : retype d tree' = { d with children := front ++ .node tree' :: back } := by
  have hposition : d.positionOf? (.java .typeTree) = some front.length := by
    have hnone : front.findIdx? (fun e => e.node?.any fun c => c.kind == .java .typeTree) = none :=
      List.findIdx?_eq_none_iff.2 hfront
    rw [Node.positionOf?, hchildren, List.findIdx?_append, hnone]
    simp [Element.node?, hkind, List.findIdx?_cons]
  rw [retype, hposition]
  exact withChild_split tree' hchildren

theorem firstChild_retype (hkind' : tree'.kind = .java .typeTree) :
    (retype d tree').firstChild? (.java .typeTree) = some tree' := by
  have hnone : front.find? (fun e => e.node?.any fun c => c.kind == .java .typeTree) = none :=
    List.find?_eq_none.2 fun e he => by simp [hfront e he]
  rw [retype_split hchildren hkind hfront, Node.firstChild?, Node.childNodes, List.find?_filterMap,
    List.find?_append, hnone, Option.none_or,
    List.find?_cons_of_pos (by simp [Element.node?, hkind'])]
  rfl

theorem firstChild_retype_other (hkind' : tree'.kind = .java .typeTree) {kind : Tree.Kind}
    (hother : kind ≠ .java .typeTree) :
    (retype d tree').firstChild? kind = d.firstChild? kind := by
  rw [retype_split hchildren hkind hfront, Node.firstChild?, Node.firstChild?, Node.childNodes,
    Node.childNodes, hchildren, List.find?_filterMap, List.find?_filterMap]
  simp [List.find?_append, Element.node?, hkind, hkind', hother.symm]

end

/-! ### The unit with another type at a declaration -/

theorem everywhere_split {P : Node → Prop} {n c c' : Node} {front back : List Element}
    (hchildren : n.children = front ++ .node c :: back) (hn : n.Everywhere P)
    (hself : P { n with children := front ++ .node c' :: back }) (hc' : c'.Everywhere P) :
    ({ n with children := front ++ .node c' :: back } : Node).Everywhere P := by
  have hbelow := (everywhere_iff.1 hn).2
  refine everywhere_iff.2 ⟨hself, fun d hd => ?_⟩
  rcases List.mem_append.1 hd with hd | hd
  · exact hbelow d (by simp [hchildren, hd])
  · rcases List.mem_cons.1 hd with hd | hd
    · cases hd
      exact hc'
    · exact hbelow d (by simp [hchildren, hd])

section
variable {symbols : SymbolTable}

theorem exists_parent {unit n : Node} {cursor : Cursor} (hunit : unit.kind = .java .compilationUnit)
    (h : Stands unit cursor n) (hkind : n.kind = .java .variableDeclaration)
    (hlocal : cursor.parent?.any isBody = false) :
    ∃ parent, cursor.parent? = some parent ∧ isBody parent = false := by
  cases h with
  | root => exact absurd (hunit.symm.trans hkind) (by decide)
  | child _ _ => exact ⟨_, rfl, hlocal⟩

theorem found_variable {n : Node} {cursor : Cursor} {context : Context}
    (h : n.kind = .java .variableDeclaration ∨ n.kind = .java .resource) :
    found? symbols n cursor context = none := by
  rcases h with h | h <;>
    exact found_other (by rw [h]; decide) (by rw [h]; decide) (by rw [h]; decide)

theorem visits_variable {n : Node} {cursor : Cursor} {s t : Context} {es : List Element}
    {changed : Bool} (hkind : n.kind = .java .variableDeclaration) (hnone : n.type? = none)
    (hswept : SweptAt (attributionHooks symbols).visitor.Visiting n cursor 0 n.children s es changed
      t) :
    (attributionHooks symbols).visitor.Visits cursor n s { n with children := es }
      ((attributionHooks symbols).visitor.leave { n with children := es } cursor t).2 := by
  have henter : s.enter n = s := enter_other (by rw [hkind]; rfl) s
  rw [← henter] at hswept
  have hsilent : found? symbols { n with children := es } cursor t = none :=
    found_variable (.inl hkind)
  have hvisits := visits_left hnone hswept
  rw [hsilent, ← hnone] at hvisits
  exact hvisits

theorem visits_retype {n tree tree' : Node} {cursor : Cursor} {s t : Context} {es : List Element}
    {changed : Bool} (hkind : n.kind = .java .variableDeclaration)
    (hnone : n.Everywhere fun l => l.type? = none) (hnested : n.Everywhere Nested)
    (hswept : SweptAt (attributionHooks symbols).visitor.Visiting n cursor 0 n.children s es changed t)
    (htree : ({ n with children := es } : Node).firstChild? (.java .typeTree) = some tree)
    (hkind' : tree'.kind = .java .typeTree) (hnone' : tree'.Everywhere fun l => l.type? = none)
    (hnested' : tree'.Everywhere Nested) :
    ∃ m, m.kind = n.kind ∧ m.untyped = m ∧ (attributionHooks symbols).visitor.Visits cursor m s
      (retype { n with children := es } tree')
      ((attributionHooks symbols).visitor.leave (retype { n with children := es } tree') cursor t).2 := by
  obtain ⟨htype, front', back', hes, hfront'⟩ := exists_typeTree htree
  rw [retype_split hes htype hfront']
  obtain rfl : es = front' ++ .node tree :: back' := hes
  obtain ⟨front, first, back, _, _, _, _, _, hchildren, -, hfront, hfirst, hback⟩ := hswept.split
  -- The type tree leaves no trace in the context, and neither does the other one.
  have hfirstNested : first.Everywhere Nested :=
    (everywhere_iff.1 hnested).2 first (by simp [hchildren])
  have hfirstKind : first.kind = .java .typeTree := by
    rw [← kind_untyped, ← untyped_of_visits hfirst, kind_untyped, htype]
  obtain ⟨rfl, rfl⟩ := hfirst.unique
    (visits_idle (idle_of_isName hfirstNested hfirstKind rfl) _ _)
  let m : Node := { n with children := front ++ .node tree' :: back }
  have hmKind : m.kind = n.kind := rfl
  rw [Nat.zero_add] at hback
  obtain ⟨swept, hall⟩ := Visitor.swept_around (show m.children = _ from rfl)
    (swept_kind hmKind hfront) (visits_idle (idle_of_isName hnested' hkind' rfl) _ _)
    (swept_kind hmKind hback)
  have hself := hnone n (mem_preorder_self n)
  have huntyped : m.Everywhere fun l => l.type? = none :=
    everywhere_split hchildren hnone hself hnone'
  exact ⟨m, hmKind, untyped_eq_self huntyped, visits_variable (n := m) hkind hself hall⟩

theorem attributeUnit_retype {source : String} {unit : Node} (hparse : parseUnit source = .ok unit)
    (hbrace : ∀ c ∈ symbols.classes, '\x7b' ∉ c.name.toList) {cursor : Cursor} {d tree tree' : Node}
    {context : Context} (hd : Stands (attributeUnit symbols unit) cursor d)
    (hleft : LeftIn symbols unit cursor.untyped d context)
    (hkind : d.kind = .java .variableDeclaration) (hlocal : cursor.parent?.any isBody = false)
    (htree : d.firstChild? (.java .typeTree) = some tree) (hkind' : tree'.kind = .java .typeTree)
    (hnone' : tree'.Everywhere fun l => l.type? = none) (hnested' : tree'.Everywhere Nested)
    (hsame : ((attributionHooks symbols).visitor.leave (retype d tree') cursor.untyped context).2 =
      ((attributionHooks symbols).visitor.leave d cursor.untyped context).2) :
    Retyped unit (cursor.plug (retype d tree')).untyped ∧
      attributeUnit symbols (cursor.plug (retype d tree')).untyped =
        cursor.plug (retype d tree') := by
  obtain ⟨hunit, -⟩ := unit_of_parseUnit hparse
  obtain ⟨n, s, es, changed, hreaches, hswept, rfl⟩ := hleft
  have huntyped := untyped_of_parseUnit hparse
  have hnone : n.Everywhere fun l => l.type? = none := fun l hl =>
    huntyped l (mem_preorder_trans hl hreaches.stands.mem)
  have hnested : n.Everywhere Nested := fun m hm =>
    nested_of_parseUnit hparse m (mem_preorder_trans hm hreaches.stands.mem)
  have henter : ((attributionHooks symbols).visitor.enter n cursor.untyped s).2 = s :=
    enter_other (by rw [show n.kind = _ from hkind]; rfl) s
  rw [henter] at hswept
  have hvisits := visits_variable (n := n) hkind (hnone n (mem_preorder_self n)) hswept
  obtain ⟨m, hm, hmUntyped, hvisits'⟩ :=
    visits_retype (n := n) hkind hnone hnested hswept htree hkind' hnone' hnested'
  rw [hsame] at hvisits'
  have hparent := exists_parent hunit.kind hreaches.stands hkind
    (sameKinds_untyped.isBody.trans hlocal)
  obtain ⟨root', s', cursor', hroot, hstands, hindex, hplug, hretyped⟩ := visits_plug hbrace
    (fun l hl => ⟨braced_of_parseUnit hparse l hl, huntyped l hl⟩) hreaches hvisits hvisits'
    (.inl ⟨hkind, hm.trans hkind, hparent⟩) (.inl ⟨hkind, (kind_retype _ _).trans hkind, hparent⟩)
  obtain rfl : attributeUnit symbols unit = root' := attributeUnit_of_visits hunit.kind hroot
  have hindices : cursor'.map Frame.index = cursor.map Frame.index := by
    rw [hindex, Cursor.untyped, List.map_map]
    rfl
  obtain ⟨rfl, -⟩ := hd.unique hstands hindices
  have hplugged : (cursor'.plug (retype { n with children := es } tree')).untyped =
      cursor'.untyped.plug m := by
    rw [plug_untyped, untyped_of_visits hvisits', hmUntyped]
  have hcontext : Context.atUnit symbols (cursor'.untyped.plug m) = .atUnit symbols unit := by
    rw [Context.atUnit, Context.atUnit, hretyped.ofUnit]
  rw [hplugged]
  rw [← hcontext] at hplug
  exact ⟨hretyped, attributeUnit_of_visits (hretyped.kind.trans hunit.kind) hplug⟩

end

end Codemod.Java
