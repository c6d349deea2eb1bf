import Codemod.Proofs.Java.Nesting
import Codemod.Proofs.Java.Places
import Codemod.Proofs.Java.Tables

/-!
What attribution finds out about declarations, beside what the table of the same units holds. The
table is collected through the bodies of classes alone, while attribution also comes to declarations
in the bodies of created objects and of constants. Outside such bodies both agree. Inside them a
class is named as a member of the nearest declared class around it, a method that is a member of
a created object gets nothing, and any other method a signature in that class.
-/

namespace Codemod.Java

open Codemod.Tree

/-! ### The last class of a name -/

namespace SymbolTable

variable {table : SymbolTable}

theorem class_insert_self (c : ClassSymbol) : (table.insert c).class? c.name = some c := by
  have hothers : (table.classes.filter fun d => d.name != c.name).find?
      (fun d => d.name == c.name) = none := by
    refine List.find?_eq_none.2 fun d hd hname => ?_
    have hother := (List.mem_filter.1 hd).2
    simp_all
  rw [class?, insert, List.find?_append, hothers]
  simp

theorem class_insert_other {c : ClassSymbol} {name : String} (h : c.name ≠ name) :
    (table.insert c).class? name = table.class? name := by
  have hself : [c].find? (fun d => d.name == name) = none := by simp [h]
  rw [class?, class?, insert, List.find?_append, hself, Option.or_none, List.find?_filter]
  congr 1
  funext d
  by_cases hd : d.name = name
  · simp [hd, Ne.symm h]
  · simp [hd]

theorem class_insertAll_other {symbols : List ClassSymbol} {name : String}
    (h : ∀ c ∈ symbols, c.name ≠ name) :
    (symbols.foldl insert table).class? name = table.class? name := by
  induction symbols generalizing table with
  | nil => rfl
  | cons c symbols ih =>
      obtain ⟨hc, hsymbols⟩ := List.forall_mem_cons.1 h
      rw [List.foldl_cons, ih hsymbols, class_insert_other hc]

theorem class_insertAll_last {before behind : List ClassSymbol} {c : ClassSymbol}
    (h : ∀ d ∈ behind, d.name ≠ c.name) :
    ((before ++ c :: behind).foldl insert table).class? c.name = some c := by
  rw [List.foldl_append, List.foldl_cons, class_insertAll_other h, class_insert_self]

end SymbolTable

/-! ### The methods of a symbol -/

theorem methods_addMember (scope : Scope) (c : ClassSymbol) (member : Node) :
    c.methods ⊆ (c.addMember scope member).methods := by
  rw [ClassSymbol.addMember]
  split
  · exact List.subset_append_left _ _
  all_goals exact List.Subset.refl _

theorem DeclaredClass.mem_methods_of_member {scope : Scope} {d : DeclaredClass} {member : Node}
    {m : Signature} (hmember : member ∈ members d.node)
    (hkind : member.kind = .java .methodDeclaration)
    (hm : (d.inside scope).method? member d.name = some m) : m ∈ (d.symbol scope).methods := by
  have hkeeps : ∀ (nodes : List Node) (s : ClassSymbol),
      m ∈ s.methods → m ∈ (nodes.foldl (ClassSymbol.addMember (d.inside scope)) s).methods := by
    intro nodes
    induction nodes with
    | nil => exact fun _ h => h
    | cons n nodes ih => exact fun s h => ih _ (methods_addMember _ s n h)
  have hadds : ∀ (nodes : List Node) (s : ClassSymbol), s.name = d.name → member ∈ nodes →
      m ∈ (nodes.foldl (ClassSymbol.addMember (d.inside scope)) s).methods := by
    intro nodes
    induction nodes with
    | nil => exact fun _ _ h => absurd h List.not_mem_nil
    | cons n nodes ih =>
        intro s hs hmem
        rcases List.mem_cons.1 hmem with rfl | hmem
        · refine hkeeps nodes _ ?_
          rw [ClassSymbol.addMember, hkind]
          simp [hs, hm]
        · exact ih _ ((addMember_name _ s n).trans hs) hmem
  exact hadds _ _ rfl hmember

/-! ### Declarations outside anonymous bodies -/

/-- No ancestor of the place creates an object or is a constant. -/
def Named (cursor : Cursor) : Prop :=
  ∀ frame ∈ cursor, frame.node.kind ≠ .java .newClass ∧ frame.node.kind ≠ .java .enumConstant

section
variable {k : Kind}

theorem holds_compilationUnit : .compilationUnit ∉ k.holds := by
  cases k <;> decide

theorem holds_classDeclaration (h : .classDeclaration ∈ k.holds) :
    k = .compilationUnit ∨ k = .classBody ∨ k = .enumBody := by
  revert h
  cases k <;> decide

theorem holds_classBody (h : .classBody ∈ k.holds) :
    k = .classDeclaration ∨ k = .newClass ∨ k = .enumConstant := by
  revert h
  cases k <;> decide

theorem holds_enumBody (h : .enumBody ∈ k.holds) : k = .classDeclaration := by
  revert h
  cases k <;> decide

theorem holds_methodDeclaration (h : .methodDeclaration ∈ k.holds) :
    k = .classBody ∨ k = .enumBody := by
  revert h
  cases k <;> decide

end

section
variable {root : Node} (hnested : root.Everywhere Nested) (hunit : root.kind = .java .compilationUnit)
include hnested hunit

theorem root_of_compilationUnit {cursor : Cursor} {n : Node} (h : Stands root cursor n)
    (hkind : n.kind = .java .compilationUnit) : cursor = [] ∧ n = root := by
  cases hcursor : cursor with
  | nil =>
      subst hcursor
      cases h
      exact ⟨rfl, rfl⟩
  | cons frame rest =>
      subst hcursor
      obtain ⟨_, _, hheld⟩ := kind_of_parent hnested hunit h hkind
      exact absurd hheld holds_compilationUnit

theorem class_of_body {cursor : Cursor} {parent n : Node} {index : Nat}
    (h : Stands root (⟨parent, index⟩ :: cursor) n) (hnamed : Named (⟨parent, index⟩ :: cursor))
    (hbody : isBody n = true) : parent.kind = .java .classDeclaration := by
  obtain ⟨hcreates, hconstant⟩ := hnamed _ List.mem_cons_self
  simp only [isBody, Bool.or_eq_true, beq_iff_eq] at hbody
  rcases hbody with hbody | hbody
  · obtain ⟨k, hk, hheld⟩ := kind_of_parent hnested hunit h hbody
    rcases holds_classBody hheld with rfl | rfl | rfl
    · exact hk
    · exact absurd hk hcreates
    · exact absurd hk hconstant
  · obtain ⟨k, hk, hheld⟩ := kind_of_parent hnested hunit h hbody
    rw [hk, holds_enumBody hheld]

variable (hregular : root.Everywhere Regular)
include hregular

theorem declared_of_stands {cursor : Cursor} {n : Node} (h : Stands root cursor n)
    (hnamed : Named cursor) (hkind : n.kind = .java .classDeclaration ∨ isBody n = true)
    {d : DeclaredClass}
    (hd : d ∈ declaredClasses (packageOf root) (classesAround (packageOf root) cursor) n) :
    d ∈ unitClasses root := by
  induction h with
  | root =>
      rcases hkind with hkind | hkind
      · cases hunit.symm.trans hkind
      · simp [isBody, hunit] at hkind
  | @child cursor parent n before behind h hchildren ih =>
      have hchild := h.child hchildren
      have hn : Element.node n ∈ parent.children := by simp [hchildren]
      have houter : Named cursor := fun frame hframe => hnamed frame (List.mem_cons_of_mem _ hframe)
      rcases hkind with hkind | hbody
      · obtain ⟨k, hk, hheld⟩ := kind_of_parent hnested hunit hchild hkind
        rw [classesAround_other (by
          rw [hk]
          rcases holds_classDeclaration hheld with rfl | rfl | rfl <;> decide)] at hd
        have hlist : d ∈ declaredClassesList (packageOf root)
            (classesAround (packageOf root) cursor) parent.children :=
          mem_declaredClassesList.2 ⟨n, hn, hd⟩
        rcases holds_classDeclaration hheld with rfl | hbody
        · obtain ⟨rfl, rfl⟩ := root_of_compilationUnit hnested hunit h hk
          exact hlist
        · have hbody : isBody parent = true := by
            rw [isBody, hk]
            rcases hbody with rfl | rfl <;> rfl
          exact ih houter (.inr hbody) (declaredClasses_body hbody ▸ hlist)
      · have hclass := class_of_body hnested hunit hchild hnamed hbody
        obtain ⟨simple, hname⟩ := Option.isSome_iff_exists.1 ((hregular _ h.mem).className hclass)
        rw [classesAround_class hclass hname] at hd
        refine ih houter (.inl hclass) ?_
        rw [declaredClasses_class hclass hname]
        exact List.mem_cons_of_mem _ (mem_declaredClassesList.2 ⟨n, hn, hd⟩)

theorem member_of_stands {cursor : Cursor} {n : Node} (h : Stands root cursor n)
    (hnamed : Named cursor) (hkind : n.kind = .java .methodDeclaration) :
    ∃ d ∈ unitClasses root, classesAround (packageOf root) cursor = d.name :: d.outer ∧
      n ∈ members d.node := by
  cases h with
  | root => cases hunit.symm.trans hkind
  | @child cursor body n before behind hbodyStands hn =>
      obtain ⟨k, hk, hheld⟩ := kind_of_parent hnested hunit (hbodyStands.child hn) hkind
      have hbody : isBody body = true := by
        rw [isBody, hk]
        rcases holds_methodDeclaration hheld with rfl | rfl <;> rfl
      cases hbodyStands with
      | root => simp [isBody, hunit] at hbody
      | @child cursor declaration _ outerBefore outerBehind hstands hchildren =>
          have houter : Named (⟨declaration, outerBefore.length⟩ :: cursor) :=
            fun frame hframe => hnamed frame (List.mem_cons_of_mem _ hframe)
          have hclass := class_of_body hnested hunit (hstands.child hchildren) houter hbody
          obtain ⟨simple, hname⟩ :=
            Option.isSome_iff_exists.1 ((hregular _ hstands.mem).className hclass)
          refine ⟨⟨_, _, declaration⟩, declared_of_stands hnested hunit hregular hstands
            (fun frame hframe => houter frame (List.mem_cons_of_mem _ hframe)) (.inl hclass)
            (declaredClasses_class hclass hname ▸ List.mem_cons_self), ?_, ?_⟩
          · rw [classesAround_other (by rw [hk]; rcases holds_methodDeclaration hheld with rfl | rfl <;>
              decide), classesAround_class hclass hname]
          · refine List.mem_flatMap.2 ⟨body, List.mem_filter.2 ⟨mem_childNodes.2 ?_, hbody⟩,
              mem_childNodes.2 ?_⟩
            · simp [hchildren]
            · simp [hn]

end

/-! ### Attributed declarations -/

theorem declaringType_of_method {scope : Scope} {n : Node} {declaringType : String} {m : Signature}
    (h : scope.method? n declaringType = some m) : m.declaringType = declaringType := by
  rw [Scope.method?] at h
  split_ifs at h
  obtain ⟨name, _, rfl⟩ := Option.map_eq_some_iff.1 h
  rfl

section
variable {source : String} {unit : Node} (hparse : parseUnit source = .ok unit)
  (symbols : SymbolTable)
include hparse

theorem kind_attributeUnit : (attributeUnit symbols unit).kind = .java .compilationUnit := by
  rw [← kind_untyped, untyped_attributeUnit hparse]
  exact (unit_of_parseUnit hparse).1.kind

theorem packageOf_attributeUnit : packageOf (attributeUnit symbols unit) = packageOf unit := by
  rw [← respelling_untyped.packageOf (regular_attributeUnit hparse symbols),
    untyped_attributeUnit hparse]

theorem ofUnit_attributeUnit (known : List String) :
    Scope.ofUnit (attributeUnit symbols unit) known = Scope.ofUnit unit known := by
  rw [← respelling_untyped.ofUnit (regular_attributeUnit hparse symbols),
    untyped_attributeUnit hparse]

theorem unitSymbols_attributeUnit (known : List String) :
    unitSymbols known (attributeUnit symbols unit) = unitSymbols known unit := by
  have hnameless : IsNameless (attributeUnit symbols unit).kind := by
    rw [kind_attributeUnit hparse]
    rfl
  rw [← unitSymbols_untyped known (regular_attributeUnit hparse symbols) hnameless,
    untyped_attributeUnit hparse]

/-- The attributed unit declares classes of the same names. -/
theorem names_attributeUnit :
    (unitClasses (attributeUnit symbols unit)).map DeclaredClass.name =
      (unitClasses unit).map DeclaredClass.name := by
  rw [← names_unitSymbols [], ← names_unitSymbols [], unitSymbols_attributeUnit hparse]

end

section
variable {units : List Node} {source : String} {unit : Node} (hunit : unit ∈ units)
  (hparse : parseUnit source = .ok unit)
include hunit hparse

theorem contains_declared (symbols : SymbolTable) {d : DeclaredClass}
    (hd : d ∈ unitClasses (attributeUnit symbols unit)) :
    (SymbolTable.ofUnits units).contains d.name = true := by
  refine SymbolTable.contains_iff.2 (mem_known.2 (List.mem_flatMap.2 ⟨unit, hunit, ?_⟩))
  rw [← names_attributeUnit hparse symbols]
  exact List.mem_map_of_mem hd

theorem symbol_of_member (symbols : SymbolTable) {d : DeclaredClass} {member : Node} {m : Signature}
    (hd : d ∈ unitClasses (attributeUnit symbols unit)) (hmember : member ∈ members d.node)
    (hkind : member.kind = .java .methodDeclaration)
    (hm : (d.inside (unitScope units unit)).method? member d.name = some m) :
    ∃ s ∈ units.flatMap (unitSymbols (knownClasses units)), s.name = d.name ∧ m ∈ s.methods := by
  refine ⟨d.symbol (.ofUnit unit (knownClasses units)), List.mem_flatMap.2 ⟨unit, hunit, ?_⟩,
    d.symbol_name _, d.mem_methods_of_member hmember hkind ?_⟩
  · rw [← unitSymbols_attributeUnit hparse symbols, unitSymbols, ofUnit_attributeUnit hparse]
    exact List.mem_map_of_mem hd
  · rw [← method_unitScope, hm]

end

/-- In an attributed unit a class carries its name in the class around it, and a method, unless it is a
member of a created object, its signature in the class around it. Outside of the bodies of created
objects and of constants, the table of the source set contains the class, and the symbol of the
method's class has the method; and the table has that symbol, if no class behind it has its name. -/
theorem attributed_declarations {units : List Node} {source : String} {unit : Node}
    (hunit : unit ∈ units) (hparse : parseUnit source = .ok unit) {cursor : Cursor} {n : Node}
    (h : Stands (attributeUnit (.ofUnits units) unit) cursor n) :
    let symbols := SymbolTable.ofUnits units
    let around := classesAround (packageOf unit) cursor
    (n.kind = .java .classDeclaration → ∃ simple, className? n = some simple ∧
      let name := qualify (around.head?.getD (packageOf unit)) simple
      n.type? = some (.type name) ∧ (Named cursor → symbols.contains name = true)) ∧
    (n.kind = .java .methodDeclaration →
      n.type? = (if isAnonymous cursor then none
        else (around.head?.bind ((scopeAt symbols unit cursor).method? n)).map .method) ∧
      (Named cursor → ∀ m, n.type? = some (.method m) → around.head? = some m.declaringType ∧
        ∃ s ∈ units.flatMap (unitSymbols (knownClasses units)),
          s.name = m.declaringType ∧ m ∈ s.methods ∧
          ∀ before behind, units.flatMap (unitSymbols (knownClasses units)) = before ++ s :: behind →
            (∀ later ∈ behind, later.name ≠ s.name) → symbols.class? s.name = some s)) := by
  intro symbols around
  have hnested := nested_attributeUnit hparse symbols
  have hroot := kind_attributeUnit hparse symbols
  have hregular := regular_attributeUnit hparse symbols
  have hpackage := packageOf_attributeUnit hparse symbols
  obtain ⟨v, context, hleft, hnone, hn⟩ := leftIn_of_stands hparse h
  have hkinds : v.kind = n.kind := by rw [hn]
  have hscope := scope_of_leftIn hparse hleft 0
  constructor
  · intro hkind
    obtain ⟨simple, hname⟩ := Option.isSome_iff_exists.1 ((hregular n h.mem).className hkind)
    have hname' : className? v = some simple := by
      rw [← hname, hn]
      rfl
    refine ⟨simple, hname, ?_, fun hnamed => ?_⟩
    · have hclasses : context.pop.scope.classes =
          (scopeAt symbols unit (⟨v, 0⟩ :: cursor.untyped)).classes :=
        congrArg Scope.classes hscope
      rw [hn]
      show found? symbols v cursor.untyped context = _
      rw [found_class (hkinds.trans hkind), hclasses, scopeAt,
        classesAround_class (hkinds.trans hkind) hname', classesAround_untyped]
      rfl
    · have hd := declared_of_stands hnested hroot hregular h hnamed (.inl hkind)
        (d := ⟨_, _, n⟩) (declaredClasses_class hkind hname ▸ List.mem_cons_self)
      rw [hpackage] at hd
      exact contains_declared hunit hparse symbols hd
  · intro hkind
    have hfound : n.type? = (if isAnonymous cursor then none
        else (around.head?.bind ((scopeAt symbols unit cursor).method? n)).map .method) := by
      have hinside : context.pop.scope = scopeAt symbols unit cursor := by
        show context.scope = _
        rw [hscope, scopeAt, scopeAt, classesAround_other (by rw [hkinds, hkind]; decide),
          classesAround_untyped]
      rw [hn]
      show found? symbols v cursor.untyped context = _
      rw [found_method (hkinds.trans hkind), sameKinds_untyped.isAnonymous, hinside]
      rfl
    refine ⟨hfound, fun hnamed m hm => ?_⟩
    obtain ⟨d, hd, hd', hmember⟩ := member_of_stands hnested hroot hregular h hnamed hkind
    have haround : around = d.name :: d.outer := by rw [← hd', hpackage]
    have hin : scopeAt symbols unit cursor = d.inside (unitScope units unit) := by
      rw [scopeAt, show classesAround (packageOf unit) cursor = _ from haround]
      rfl
    have hmethod : (d.inside (unitScope units unit)).method? n d.name = some m := by
      rw [hm, haround, hin] at hfound
      split_ifs at hfound
      obtain ⟨_, hmethod, heq⟩ := Option.map_eq_some_iff.1 hfound.symm
      cases heq
      exact hmethod
    have hdeclaring := declaringType_of_method hmethod
    obtain ⟨s, hs, hname, hms⟩ := symbol_of_member hunit hparse symbols hd hmember hkind hmethod
    refine ⟨by rw [haround, hdeclaring]; rfl, s, hs, hname.trans hdeclaring.symm, hms, ?_⟩
    intro before behind hsplit hlast
    show ((units.flatMap (unitSymbols (knownClasses units))).foldl SymbolTable.insert {}).class? _ = _
    rw [hsplit]
    exact SymbolTable.class_insertAll_last hlast

/-- A method in the body of a constant carries a signature in the enumeration, which has no methods in
the table. -/
theorem attributed_declarations_constant :
    let source := "enum E \x7b A \x7b void f() \x7b\x7d \x7d \x7d"
    ∃ unit, parseUnit source = .ok unit ∧
      let symbols := SymbolTable.ofUnits [unit]
      ∃ cursor n m, Stands (attributeUnit symbols unit) cursor n ∧
        n.kind = .java .methodDeclaration ∧ n.type? = some (.method m) ∧ m.display = "E f()" ∧
        (symbols.class? m.declaringType).map ClassSymbol.methods = some [] := by
  intro source
  have hparses : (parseUnit source).toOption.any (fun unit =>
      let symbols := SymbolTable.ofUnits [unit]
      (placeFrom [] (attributeUnit symbols unit) [0, 2, 1, 0, 1, 1]).any fun (cursor, n) =>
        n.kind == .java .methodDeclaration && !isAnonymous cursor &&
          ((classesAround (packageOf unit) cursor).head?.bind
            ((scopeAt symbols unit cursor).method? n)).any fun m =>
              m.display == "E f()" &&
                (symbols.class? m.declaringType).map ClassSymbol.methods == some []) = true := by
    decide +kernel
  obtain ⟨unit, hunit, hparses⟩ := exists_ok_of_any hparses
  simp only [Bool.and_eq_true, Option.any_eq_true, Prod.exists, beq_iff_eq, Bool.not_eq_true']
    at hparses
  obtain ⟨cursor, n, hplace, ⟨hkind, hnamed⟩, m, hm, hdisplay, hmethods⟩ := hparses
  have hn := stands_of_placeFrom .root hplace
  have htype := ((attributed_declarations List.mem_cons_self hunit hn).2 hkind).1
  refine ⟨unit, hunit, cursor, n, m, hn, hkind, ?_, hdisplay, hmethods⟩
  rw [htype, hnamed, hm]
  rfl

end Codemod.Java
