import Codemod.Proofs.Recipes.MethodScopes

/-!
What calls mean behind a renaming. Expressions keep their types, and a call under its name behind
the renaming means the method that it meant before, as long as the imports through which it
resolved were moved along.
-/

namespace Codemod.Java

open Codemod.Tree

/-- The context in a unit with other static imports. -/
def Context.withStaticImports (context : Context) (staticImports : List (String × String)) : Context :=
  { context with scope := { context.scope with staticImports } }

end Codemod.Java

namespace Codemod.Recipes.MethodName

open Codemod.Tree Codemod.Java

namespace Renaming

variable {r : Renaming} {symbols : SymbolTable} {imports : List (String × String)}
  {context : Context}

/-! ### Types of expressions -/

theorem variableType_renamed (name : String) :
    (context.withStaticImports imports).variableType? (r.renamedTable symbols) name =
      context.variableType? symbols name := by
  simp only [Context.variableType?, Context.withStaticImports, field_renamedTable]

theorem classType_renamed (name : String) :
    (context.withStaticImports imports).classType? (r.renamedTable symbols) name =
      context.classType? symbols name := by
  simp only [Context.classType?, contains_renamedTable]
  rfl

theorem nameType_renamed (name : String) :
    nameType (r.renamedTable symbols) (context.withStaticImports imports) name =
      nameType symbols context name := by
  have hsuper : ∀ current : Option String,
      ((current.bind (r.renamedTable symbols).class?).bind fun c => c.supertypes.head?) =
        (current.bind symbols.class?).bind fun c => c.supertypes.head? := by
    intro current
    cases current with
    | none => rfl
    | some name =>
        rw [Option.bind_some, Option.bind_some, class_renamedTable]
        cases symbols.class? name <;> rfl
  unfold nameType
  split
  · rfl
  · exact congrArg (fun t => (t.map TypeRef.named).getD .unknown) (hsuper _)
  · rw [variableType_renamed, classType_renamed]

theorem memberType_renamed (target : Option TypeRef) (member : String) :
    memberType (r.renamedTable symbols) (context.withStaticImports imports) target member =
      memberType symbols context target member := by
  simp only [memberType, field_renamedTable, classType_renamed]

theorem returns_respell (n : Node) :
    ((r.respell n).type?.bind TypeInfo.method?).map Signature.returns =
      (n.type?.bind TypeInfo.method?).map Signature.returns := by
  rw [respell_eq]
  rcases respellHere_cases (r := r)
    { n with children := n.children.map (Element.mapNode r.respell) } with
    hsame | ⟨info, m, w, hinfo, hm, _, hw, hrespelled⟩
  · rw [hsame]
  · have htype : n.type? = some info := hinfo
    have hrenamed : w.type? = some (info.renamed r.newName) := by
      rw [(rename_type hw).2, hinfo]
      rfl
    rw [hrespelled, hrenamed, htype]
    cases info <;> cases hm <;> rfl

theorem typesOf_mapNode {es : List Element}
    (h : ∀ c, Element.node c ∈ es →
      typeOf (r.renamedTable symbols) (context.withStaticImports imports) (r.respell c) =
        typeOf symbols context c) :
    typesOf (r.renamedTable symbols) (context.withStaticImports imports)
        (es.map (Element.mapNode r.respell)) = typesOf symbols context es := by
  induction es with
  | nil => rfl
  | cons e es ih =>
      rw [List.map_cons, typesOf, typesOf, ih fun c hc => h c (List.mem_cons_of_mem _ hc)]
      cases e with
      | token t => rfl
      | node c =>
          rw [Element.mapNode, typeOfElement, typeOfElement, h c List.mem_cons_self]

theorem typeOf_respell (hparen : ∀ c ∈ symbols.classes, '(' ∉ c.name.toList) {n : Node}
    (hregular : n.Everywhere Regular) :
    typeOf (r.renamedTable symbols) (context.withStaticImports imports) (r.respell n) =
      typeOf symbols context n := by
  induction n using Node.induction_on with
  | step n ih =>
      have hrespelling := respelling_respell r
      obtain ⟨hn, hbelow⟩ := everywhere_iff.1 hregular
      have hkind := kind_respell (r := r) n
      have hreturns := returns_respell (r := r) n
      have hchild := hrespelling.childType context.scope n
      have htree := hrespelling.firstChild n (.java .typeTree)
      have hdimensions := hrespelling.dimensions n
      have htokens : IsNameless n.kind → (r.respell n).tokens = n.tokens := hrespelling.tokens
      have htoken : IsNameless n.kind → ∀ text, (r.respell n).hasToken text = n.hasToken text :=
        hrespelling.hasToken
      have hoperands : IsNameless n.kind →
          typesOf (r.renamedTable symbols) (context.withStaticImports imports)
            (r.respell n).children = typesOf symbols context n.children := by
        intro hnameless
        rw [hrespelling.children_of_nameless hnameless]
        exact typesOf_mapNode fun c hc => ih c hc (hbelow c hc)
      have hclass : (if symbols.contains (r.respell n).bareText then
          some (TypeRef.named (r.respell n).bareText) else none) =
            if symbols.contains n.bareText then some (TypeRef.named n.bareText) else none :=
        hrespelling.bareText_test (a := none) hregular
          (p := fun text => if symbols.contains text then some (TypeRef.named text) else none)
          fun text htext => if_neg fun hcontains => by
            obtain ⟨c, hc⟩ := Option.isSome_iff_exists.1 hcontains
            have hname : c.name = text := by simpa using List.find?_some hc
            exact hparen c (SymbolTable.mem_of_class hc) (hname ▸ htext)
      generalize r.respell n = n' at *
      obtain ⟨kind, lead, children, markers, type?⟩ := n
      obtain ⟨kind', lead', children', markers', type?'⟩ := n'
      cases hkind
      clear hrespelling ih hbelow hn hregular hparen
      unfold typeOf
      cases kind with
      | yaml kind => rfl
      | java kind =>
          cases kind <;> dsimp only
          case literal => rw [htokens rfl]
          case identifier => simp only [htokens rfl, nameType_renamed]
          case fieldAccess =>
            rw [contains_renamedTable, htokens rfl, hoperands rfl]
            simp only [memberType_renamed]
            split_ifs at hclass ⊢ <;> simp_all
          case methodInvocation => exact congrArg (fun t => t.getD .unknown) hreturns
          case newClass => exact hchild
          case cast => exact hchild
          case newArray =>
            rw [htree, Option.isSome_map, hdimensions]
            exact if_congr Iff.rfl (congrArg (fun t : TypeRef => t.arrays _) hchild) rfl
          case parenthesized => rw [htoken rfl, hoperands rfl]
          case unary => rw [htoken rfl, hoperands rfl]
          case conditional => rw [hoperands rfl]
          case arrayAccess => rw [hoperands rfl]
          case binary => rw [htokens rfl, hoperands rfl]

/-! ### Imports -/

/-- A static import brings in the same methods of the one name behind the renaming: it has this name
if the pattern selects it, what it brings in under this name is static, and it is moved along with
a selected method that it brings in by name. -/
structure ImportFollows (r : Renaming) (name : String) (symbols : SymbolTable)
    (parts : String × String) : Prop where
  selected : parts.2 ≠ "*" → r.selectsImport parts.1 parts.2 = true → parts.2 = name
  isStatic : parts.2 = name ∨ parts.2 = "*" →
    ∀ m ∈ symbols.candidates parts.1 name, m.isStatic = true
  moves : parts.2 = name → ∀ m ∈ symbols.candidates parts.1 name, r.applies m = true →
    m.declaringType = parts.1 ∨ r.pattern.selectsOwner parts.1 = true

/-- The table and the static imports of a unit with these calls through them, and what an
application saw there: all selected methods have the one name, the new name is none of a method or
an import, and each import follows. -/
structure Follows (r : Renaming) (name : String) (symbols : SymbolTable)
    (imports : List (String × String)) (calls : List Signature) (seen : Seen) : Prop where
  other : name ≠ r.newName
  star : r.newName ≠ "*"
  keyword : isKeyword r.newName = false
  paren : ∀ c ∈ symbols.classes, '(' ∉ c.name.toList
  only : ∀ c ∈ symbols.classes, ∀ m ∈ c.methods, r.applies m = true → m.name = name
  fresh : ∀ c ∈ symbols.classes, ∀ m ∈ c.methods, m.name ≠ r.newName
  members : ∀ parts ∈ imports, parts.2 ≠ r.newName
  follow : ∀ parts ∈ imports, r.ImportFollows name symbols parts
  known : ∀ m ∈ calls, ∃ c ∈ symbols.classes, m ∈ c.methods
  collects : r.Collects calls {} seen

theorem mem_candidates {owner name : String} {arguments : List TypeRef} {m : Signature}
    (h : symbols.findMethod? owner name arguments = some m) : m ∈ symbols.candidates owner name := by
  rw [SymbolTable.findMethod?] at h
  cases hfixed : (symbols.candidates owner name).find? fun m => symbols.fitsFixed m arguments with
  | some fixed =>
      rw [hfixed] at h
      cases h
      exact List.mem_of_find?_eq_some hfixed
  | none =>
      rw [hfixed] at h
      exact List.mem_of_find?_eq_some h

theorem findSome_eq_of_forall {α β : Type} {f : α → Option β} {xs : List α} {b : β}
    (hall : ∀ x ∈ xs, f x = none ∨ f x = some b) (hsome : ∃ x ∈ xs, f x = some b) :
    xs.findSome? f = some b := by
  cases hfound : xs.findSome? f with
  | none =>
      obtain ⟨x, hx, hfx⟩ := hsome
      rw [List.findSome?_eq_none_iff.1 hfound x hx] at hfx
      cases hfx
  | some b' =>
      obtain ⟨x, hx, hfx⟩ := List.exists_of_findSome?_eq_some hfound
      rcases hall x hx with hnone | hsome
      · rw [hnone] at hfx
        cases hfx
      · rw [← hfx, hsome]

theorem findSome_append {α β : Type} {f : α → Option β} {xs ys : List α}
    (h : ∀ x ∈ xs, f x = none) : (xs ++ ys).findSome? f = ys.findSome? f := by
  rw [List.findSome?_append, List.findSome?_eq_none_iff.2 h]
  rfl

section
variable {name : String} {calls : List Signature} {seen : Seen}
  (hfollows : r.Follows name symbols imports calls seen)
include hfollows

omit hfollows in
theorem comesFrom_self {called : String} (hcalled : called ≠ r.newName) :
    r.ComesFrom symbols called called := by
  intro c hc m hm hrenamed
  rw [renamed] at hrenamed
  split_ifs at hrenamed
  · exact absurd hrenamed.symm hcalled
  · exact hrenamed

theorem comesFrom_renamed {m : Signature} (hm : ∃ c ∈ symbols.classes, m ∈ c.methods) :
    r.ComesFrom symbols (r.renamed m).name m.name := by
  obtain ⟨c, hc, hm⟩ := hm
  intro c' hc' m' hm' hrenamed
  rw [renamed, renamed] at hrenamed
  split_ifs at hrenamed with h' h h
  · rw [hfollows.only c hc m hm h, hfollows.only c' hc' m' hm' h']
  · exact absurd hrenamed.symm (hfollows.fresh c hc m hm)
  · exact absurd hrenamed (hfollows.fresh c' hc' m' hm')
  · exact hrenamed

theorem member_of_moved {parts : String × String} (hparts : parts ∈ imports)
    (hstar : parts.2 ≠ "*")
    (hreason : r.renamedHere seen parts.1 parts.2 = true ∨ r.selectsImport parts.1 parts.2 = true) :
    parts.2 = name := by
  rcases hreason with hrenamed | hselects
  · obtain ⟨x, hx, hmember⟩ := List.any_eq_true.1 hrenamed
    rw [Bool.and_eq_true, beq_iff_eq] at hmember
    rcases (hfollows.collects.renamed x).1 hx with hx | ⟨m, hm, happlies, rfl⟩
    · cases hx
    · obtain ⟨c, hc, hmem⟩ := hfollows.known m hm
      exact hmember.1.symm.trans (hfollows.only c hc m hmem happlies)
  · exact (hfollows.follow parts hparts).selected hstar hselects

theorem brought_none {called called' : String} {arguments : List TypeRef} {parts : String × String}
    (hparts : parts ∈ imports) (hcalled : called ≠ r.newName)
    (hsame : called' = called ∨ called' = r.newName ∧ called = name)
    (hcomes : r.ComesFrom symbols called' called)
    (h : brought? symbols called arguments parts = none) :
    ∀ parts' ∈ r.movedParts seen imports parts,
      brought? (r.renamedTable symbols) called' arguments parts' = none := by
  intro parts' hparts'
  have hfind : (parts.2 = called ∨ parts.2 = "*") →
      (r.renamedTable symbols).findMethod? parts.1 called' arguments = none := by
    intro hbrings
    rw [brought?, if_pos hbrings] at h
    exact findMethod_renamed_none hcomes h
  rw [brought?]
  split_ifs with hbrings
  · rcases of_mem_movedParts hparts' with rfl | ⟨rfl, hstar, hreason⟩
    · refine hfind (hbrings.imp_left fun hmember => ?_)
      rcases hsame with rfl | ⟨rfl, _⟩
      · exact hmember
      · exact absurd hmember (hfollows.members _ hparts)
    · refine hfind (.inl ?_)
      rcases hsame with rfl | ⟨_, rfl⟩
      · exact absurd hbrings (not_or.2 ⟨hcalled.symm, hfollows.star⟩)
      · exact member_of_moved hfollows hparts hstar hreason
  · rfl

theorem brought_some {m : Signature} {arguments : List TypeRef} {parts : String × String}
    (hparts : parts ∈ imports) (h : brought? symbols m.name arguments parts = some m)
    (hcall : m.name = name → m ∈ calls) :
    (r.movedParts seen imports parts).findSome?
      (brought? (r.renamedTable symbols) (r.renamed m).name arguments) = some (r.renamed m) := by
  rw [brought?] at h
  split_ifs at h with hbrings
  have hmem := (SymbolTable.mem_of_findMethod h).1
  have hfind := findMethod_renamed (comesFrom_renamed hfollows hmem) h
  have hbrought : ∀ parts' : String × String, parts'.1 = parts.1 →
      parts'.2 = (r.renamed m).name ∨ parts'.2 = "*" →
        brought? (r.renamedTable symbols) (r.renamed m).name arguments parts' = some (r.renamed m) := by
    intro parts' howner hbrings'
    rw [brought?, if_pos hbrings', howner, hfind]
  refine findSome_eq_of_forall (fun parts' hparts' => ?_) ?_
  · have howner : parts'.1 = parts.1 := by
      rcases of_mem_movedParts hparts' with rfl | ⟨rfl, _⟩ <;> rfl
    by_cases hbrings' : parts'.2 = (r.renamed m).name ∨ parts'.2 = "*"
    · exact .inr (hbrought parts' howner hbrings')
    · exact .inl (if_neg hbrings')
  · by_cases hstar : parts.2 = "*"
    · exact ⟨parts, mem_movedParts_self (.inl hstar), hbrought parts rfl (.inr hstar)⟩
    · have hmember : parts.2 = m.name := hbrings.resolve_right hstar
      obtain ⟨c, hc, hmc⟩ := hmem
      cases happlies : r.applies m with
      | true =>
          have hname := hfollows.only c hc m hmc happlies
          have hcandidate : m ∈ symbols.candidates parts.1 name := hname ▸ mem_candidates h
          refine ⟨(parts.1, r.newName), mem_movedParts_new hstar ?_ ?_, hbrought _ rfl (.inl ?_)⟩
          · exact fun hexisting => hfollows.members _ hexisting rfl
          · refine List.any_eq_true.2 ⟨(m.declaringType, m.name), ?_, ?_⟩
            · exact (hfollows.collects.renamed _).2 (.inr ⟨m, hcall hname, happlies, rfl⟩)
            · have hmoves := (hfollows.follow parts hparts).moves (hmember.trans hname) m hcandidate
                happlies
              simpa [hmember] using hmoves
          · rw [renamed, if_pos happlies]
      | false =>
          refine ⟨parts, mem_movedParts_self (.inr ?_), hbrought parts rfl (.inl ?_)⟩
          · by_cases hname : m.name = name
            · exact .inl ((hfollows.collects.kept _).2
                (.inr ⟨m, hcall hname, happlies, hmember⟩))
            · refine .inr ⟨?_, ?_⟩ <;> rw [← Bool.not_eq_true] <;> intro hreason
              · exact hname (hmember ▸ member_of_moved hfollows hparts hstar (.inl hreason))
              · exact hname (hmember ▸ member_of_moved hfollows hparts hstar (.inr hreason))
          · rw [renamed, happlies]
            exact hmember

theorem findSome_moved_none {called called' : String} {arguments : List TypeRef}
    (hcalled : called ≠ r.newName) (hsame : called' = called ∨ called' = r.newName ∧ called = name)
    (hcomes : r.ComesFrom symbols called' called)
    (h : imports.findSome? (brought? symbols called arguments) = none) :
    (r.movedImports seen imports).findSome?
      (brought? (r.renamedTable symbols) called' arguments) = none := by
  rw [List.findSome?_eq_none_iff] at h ⊢
  intro parts' hparts'
  obtain ⟨parts, hparts, hparts'⟩ := List.mem_flatMap.1 hparts'
  exact brought_none hfollows hparts hcalled hsame hcomes (h parts hparts) parts' hparts'

theorem findSome_moved {m : Signature} {arguments : List TypeRef}
    (h : imports.findSome? (brought? symbols m.name arguments) = some m)
    (hcall : m.name = name → m ∈ calls) :
    (r.movedImports seen imports).findSome?
      (brought? (r.renamedTable symbols) (r.renamed m).name arguments) = some (r.renamed m) := by
  obtain ⟨front, parts, behind, hsplit, hbrought, hfront⟩ := List.findSome?_eq_some_iff.1 h
  have hfirst := brought_some hfollows (show parts ∈ imports by rw [hsplit]; simp) hbrought hcall
  have hmem : ∃ c ∈ symbols.classes, m ∈ c.methods := by
    rw [brought?] at hbrought
    split_ifs at hbrought
    exact (SymbolTable.mem_of_findMethod hbrought).1
  have hsame : (r.renamed m).name = m.name ∨ (r.renamed m).name = r.newName ∧ m.name = name := by
    obtain ⟨c, hc, hm⟩ := hmem
    rw [renamed]
    split_ifs with happlies
    · exact .inr ⟨rfl, hfollows.only c hc m hm happlies⟩
    · exact .inl rfl
  have hnone : ∀ parts' ∈ front.flatMap (r.movedParts seen imports),
      brought? (r.renamedTable symbols) (r.renamed m).name arguments parts' = none := by
    intro parts' hparts'
    obtain ⟨other, hother, hparts'⟩ := List.mem_flatMap.1 hparts'
    obtain ⟨c, hc, hm⟩ := hmem
    exact brought_none hfollows (by rw [hsplit]; exact List.mem_append_left _ hother)
      (hfollows.fresh c hc m hm) hsame (comesFrom_renamed hfollows ⟨c, hc, hm⟩) (hfront other hother)
      parts' hparts'
  rw [movedImports]
  generalize r.movedParts seen imports = moved at hfirst hnone ⊢
  rw [hsplit, List.flatMap_append, findSome_append hnone, List.flatMap_cons, List.findSome?_append,
    hfirst]
  rfl

/-! ### Calls -/

/-- The name of a call behind the renaming, if it means this. -/
def nameBehind (r : Renaming) (called : String) (info : Option TypeInfo) : String :=
  ((info.bind TypeInfo.method?).map fun m => (r.renamed m).name).getD called

omit hfollows in
theorem findSome_classes_none {classes : List String} {called called' : String}
    {arguments : List TypeRef} (hcomes : r.ComesFrom symbols called' called)
    (h : (classes.findSome? fun c => symbols.findMethod? c called arguments) = none) :
    (classes.findSome? fun c => (r.renamedTable symbols).findMethod? c called' arguments) = none := by
  rw [List.findSome?_eq_none_iff] at h ⊢
  exact fun c hc => findMethod_renamed_none hcomes (h c hc)

theorem findSome_classes {classes : List String} {called : String} {arguments : List TypeRef}
    {m : Signature}
    (h : (classes.findSome? fun c => symbols.findMethod? c called arguments) = some m) :
    (classes.findSome? fun c =>
      (r.renamedTable symbols).findMethod? c (r.renamed m).name arguments) = some (r.renamed m) := by
  obtain ⟨front, c, behind, rfl, hfound, hfront⟩ := List.findSome?_eq_some_iff.1 h
  obtain ⟨hmem, rfl⟩ := SymbolTable.mem_of_findMethod hfound
  have hcomes := comesFrom_renamed hfollows hmem
  exact List.findSome?_eq_some_iff.2 ⟨front, c, behind, rfl, findMethod_renamed hcomes hfound,
    fun c' hc' => findMethod_renamed_none hcomes (hfront c' hc')⟩

theorem not_self_renamed {m : Signature} (h : ¬ (m.name == "this" || m.name == "super") = true) :
    ¬ ((r.renamed m).name == "this" || (r.renamed m).name == "super") = true := by
  rw [renamed]
  split_ifs
  · simp only [Bool.or_eq_true, beq_iff_eq, not_or]
    constructor <;>
    · intro hname
      have hkeyword := hfollows.keyword
      rw [hname] at hkeyword
      revert hkeyword
      decide
  · exact h

omit hfollows in
theorem unqualifiedCall_of_classes {scope : Scope} {called : String} {arguments : List TypeRef}
    {m : Signature} (hself : ¬ (called == "this" || called == "super") = true)
    (h : (scope.classes.findSome? fun c => symbols.findMethod? c called arguments) = some m) :
    unqualifiedCall? symbols scope called arguments = some (.invocation m false) := by
  rw [unqualifiedCall?, if_neg hself, h]

omit hfollows in
theorem unqualifiedCall_of_imports (scope : Scope) {called : String} {arguments : List TypeRef}
    (hself : ¬ (called == "this" || called == "super") = true)
    (h : (scope.classes.findSome? fun c => symbols.findMethod? c called arguments) = none) :
    unqualifiedCall? symbols scope called arguments =
      ((scope.staticImports.findSome? (brought? symbols called arguments)).filter fun m =>
        m.isStatic).map fun m => .invocation m true := by
  rw [unqualifiedCall?, if_neg hself, h, importedMethod_eq]

theorem renamed_of_not_static {called : String} {arguments : List TypeRef} {m : Signature}
    (h : imports.findSome? (brought? symbols called arguments) = some m)
    (hstatic : m.isStatic = false) : m.name ≠ name ∧ r.renamed m = m := by
  obtain ⟨parts, hparts, hbrought⟩ := List.exists_of_findSome?_eq_some h
  rw [brought?] at hbrought
  split_ifs at hbrought with hbrings
  obtain ⟨⟨c, hc, hm⟩, rfl⟩ := SymbolTable.mem_of_findMethod hbrought
  have hname : m.name ≠ name := by
    rintro rfl
    rw [(hfollows.follow parts hparts).isStatic hbrings m (mem_candidates hbrought)] at hstatic
    cases hstatic
  refine ⟨hname, if_neg fun happlies => hname (hfollows.only c hc m hm happlies)⟩

theorem unqualifiedCall_renamed {scope : Scope} (himports : scope.staticImports = imports)
    {called : String} (hcalled : called ≠ r.newName) {arguments : List TypeRef}
    (hcalls : ∀ m, unqualifiedCall? symbols scope called arguments = some (.invocation m true) →
      m ∈ calls) :
    unqualifiedCall? (r.renamedTable symbols)
        { scope with staticImports := r.movedImports seen imports }
        (r.nameBehind called (unqualifiedCall? symbols scope called arguments)) arguments =
      (unqualifiedCall? symbols scope called arguments).map r.renamedInfo := by
  by_cases hself : (called == "this" || called == "super") = true
  · have hnone : unqualifiedCall? symbols scope called arguments = none := if_pos hself
    rw [hnone]
    exact if_pos hself
  cases hclasses : scope.classes.findSome? fun c => symbols.findMethod? c called arguments with
  | some m =>
      obtain ⟨c, _, hfound⟩ := List.exists_of_findSome?_eq_some hclasses
      obtain ⟨_, rfl⟩ := SymbolTable.mem_of_findMethod hfound
      rw [unqualifiedCall_of_classes hself hclasses]
      exact unqualifiedCall_of_classes (not_self_renamed hfollows hself)
        (findSome_classes hfollows hclasses)
  | none =>
      rw [unqualifiedCall_of_imports scope hself hclasses, himports] at hcalls ⊢
      have hself' : r.ComesFrom symbols called called := comesFrom_self hcalled
      cases hfound : imports.findSome? (brought? symbols called arguments) with
      | none =>
          have hnone := findSome_moved_none hfollows hcalled (.inl rfl) hself' hfound
          refine (unqualifiedCall_of_imports
            { scope with staticImports := r.movedImports seen imports } hself
            (findSome_classes_none hself' hclasses)).trans ?_
          rw [hnone]
          rfl
      | some m =>
          have hmem : (∃ c ∈ symbols.classes, m ∈ c.methods) ∧ m.name = called := by
            obtain ⟨parts, _, hbrought⟩ := List.exists_of_findSome?_eq_some hfound
            rw [brought?] at hbrought
            split_ifs at hbrought
            exact SymbolTable.mem_of_findMethod hbrought
          obtain ⟨hmem, rfl⟩ := hmem
          have hclasses' := findSome_classes_none (comesFrom_renamed hfollows hmem) hclasses
          have himported := fun hcall => (unqualifiedCall_of_imports
            { scope with staticImports := r.movedImports seen imports }
            (not_self_renamed hfollows hself) hclasses').trans
              (congrArg (fun found => (found.filter fun m => m.isStatic).map fun m =>
                TypeInfo.invocation m true) (findSome_moved hfollows hfound hcall))
          rw [hfound] at hcalls
          cases hstatic : m.isStatic with
          | true =>
              have hinfo : ((some m).filter fun m => m.isStatic) = some m := by
                simp [Option.filter, hstatic]
              rw [hinfo] at hcalls ⊢
              refine (himported fun _ => hcalls m rfl).trans ?_
              simp [Option.filter, hstatic, renamedInfo]
          | false =>
              have hinfo : ((some m).filter fun m => m.isStatic) = none := by
                simp [Option.filter, hstatic]
              obtain ⟨hname, hsame⟩ := renamed_of_not_static hfollows hfound hstatic
              rw [hinfo]
              rw [hsame] at himported
              refine (himported fun h => absurd h hname).trans ?_
              simp [Option.filter, hstatic]

theorem qualifiedCall_renamed {owner called : String} (hcalled : called ≠ r.newName)
    {arguments : List TypeRef} {info : Option TypeInfo}
    (hinfo : ((symbols.findMethod? owner called arguments).bind fun m =>
      some (.invocation m false)) = info) :
    (((r.renamedTable symbols).findMethod? owner (r.nameBehind called info) arguments).bind fun m =>
      some (.invocation m false)) = info.map r.renamedInfo := by
  cases hfound : symbols.findMethod? owner called arguments with
  | none =>
      rw [hfound, Option.bind_none] at hinfo
      have hname : r.nameBehind called info = called := by rw [← hinfo]; rfl
      rw [hname, findMethod_renamed_none (comesFrom_self hcalled) hfound, ← hinfo]
      rfl
  | some m =>
      obtain ⟨hm, rfl⟩ := SymbolTable.mem_of_findMethod hfound
      rw [hfound, Option.bind_some] at hinfo
      have hname : r.nameBehind m.name info = (r.renamed m).name := by rw [← hinfo]; rfl
      rw [hname, findMethod_renamed (comesFrom_renamed hfollows hm) hfound, ← hinfo]
      rfl

omit hfollows in
theorem receiver_respell (n : Node) : receiver? (r.respell n) = (receiver? n).map r.respell := by
  have hhead : ∀ es : List Element,
      es.head?.bind Element.node? = (es.map Element.node?).head?.bind id := by
    intro es
    cases es <;> rfl
  rw [receiver?, receiver?, hhead, nodes_respell, ← hhead]
  cases n.children with
  | nil => rfl
  | cons e es => cases e <;> rfl

omit hfollows in
theorem call_respell {n : Node} (hkind : n.kind = .java .methodInvocation)
    (hspelled : Spelled symbols n) (htype : n.type? = resolveCall? symbols context n) :
    methodName? (r.respell n) = (methodName? n).map (fun called => r.nameBehind called n.type?) ∧
      (r.respell n).type? = n.type?.map r.renamedInfo := by
  cases hinfo : resolveCall? symbols context n with
  | none =>
      rw [hinfo] at htype
      have hname : methodName? (r.respell n) = methodName? n :=
        methodName_skeleton (kind_respell n) (by
          rw [respell_of_untyped htype]
          exact skeleton_mapNode kind_respell n.children)
      refine ⟨?_, by rw [respell_of_untyped htype, htype]; rfl⟩
      rw [hname, htype]
      exact Option.map_id'.symm
  | some info =>
      obtain ⟨m, via, rfl, hname, _⟩ := resolved_call hinfo
      rw [hinfo] at htype
      obtain ⟨htype', hname'⟩ := carried_respell (r := r) (by rw [hkind]; decide) hspelled htype rfl
      rw [htype', hname', hname, htype]
      exact ⟨rfl, rfl⟩

theorem resolveCall_respell (himports : context.scope.staticImports = imports) {n : Node}
    (hkind : n.kind = .java .methodInvocation) (hregular : n.Everywhere Regular)
    (hspelled : Spelled symbols n) (hname : methodName? n ≠ some r.newName)
    (htype : n.type? = resolveCall? symbols context n)
    (hcalls : ∀ m, n.type? = some (.invocation m true) → m ∈ calls) :
    resolveCall? (r.renamedTable symbols)
        (context.withStaticImports (r.movedImports seen imports)) (r.respell n) =
      (resolveCall? symbols context n).map r.renamedInfo := by
  obtain ⟨hname', _⟩ := call_respell (r := r) hkind hspelled htype
  have hbelow := (everywhere_iff.1 hregular).2
  rw [htype] at hname' hcalls
  rw [resolveCall?, hname', (respelling_respell r).firstChild, receiver_respell]
  generalize hinfo : resolveCall? symbols context n = info at hcalls ⊢
  rw [resolveCall?] at hinfo
  cases hcalled : methodName? n with
  | none =>
      rw [hcalled] at hinfo
      rw [← hinfo]
      rfl
  | some called =>
      cases hlist : n.firstChild? (.java .arguments) with
      | none =>
          rw [hcalled, hlist] at hinfo
          rw [← hinfo]
          rfl
      | some list =>
          have hlistRegular := hbelow list (mem_childNodes.1 (List.mem_of_find?_eq_some hlist))
          have harguments : (r.respell list).childNodes.map (typeOf (r.renamedTable symbols)
              (context.withStaticImports (r.movedImports seen imports))) =
                list.childNodes.map (typeOf symbols context) := by
            rw [(respelling_respell r).childNodes, List.map_map]
            exact List.map_congr_left fun c hc => typeOf_respell hfollows.paren
              ((everywhere_iff.1 hlistRegular).2 c (mem_childNodes.1 hc))
          have hcalledName : called ≠ r.newName := fun h => hname (h ▸ hcalled)
          rw [hcalled, hlist] at hinfo
          simp only [Option.bind_eq_bind, Option.bind_some, Option.map_some, harguments] at hinfo ⊢
          cases hreceiver : receiver? n with
          | none =>
              rw [hreceiver] at hinfo
              simp only [Option.map_none] at hinfo ⊢
              subst hinfo
              exact unqualifiedCall_renamed hfollows himports hcalledName hcalls
          | some receiver =>
              have hmem : Element.node receiver ∈ n.children := by
                obtain ⟨e, he, hnode⟩ := Option.bind_eq_some_iff.1 hreceiver
                cases e with
                | token t => cases hnode
                | node c =>
                    cases hnode
                    exact List.mem_of_mem_head? he
              have howner : typeOf (r.renamedTable symbols) (context.withStaticImports
                  (r.movedImports seen imports)) (r.respell receiver) =
                    typeOf symbols context receiver :=
                typeOf_respell hfollows.paren (hbelow receiver hmem)
              rw [hreceiver] at hinfo
              simp only [Option.map_some, howner] at hinfo ⊢
              cases hclass : (typeOf symbols context receiver).className? with
              | none =>
                  rw [hclass] at hinfo
                  rw [← hinfo]
                  rfl
              | some owner =>
                  rw [hclass] at hinfo
                  exact qualifiedCall_renamed hfollows hcalledName hinfo

end

end Renaming

end Codemod.Recipes.MethodName
