import Codemod.Proofs.Java.DeclaredClasses

/-!
Where the methods in a table of symbols come from. The signature of a declaration hangs neither on
what attribution found out about the nodes in it nor on the order of the known classes; so each
method of a table is the signature of a member of a declared class, as the scope around the member
gives it. Names of classes are written with identifiers and dots.
-/

namespace Codemod.Java

open Codemod.Tree

theorem methodNameSlot_untyped (n : Node) : methodNameSlot? n.untyped = methodNameSlot? n := by
  refine methodNameSlot_skeleton (kind_untyped n) ?_
  rw [children_untyped, untypedList_eq_map, List.map_map]
  congr 1
  funext e
  cases e with
  | node c => exact congrArg Sum.inl (kind_untyped c)
  | token t => rfl

theorem methodName_untyped (n : Node) : methodName? n.untyped = methodName? n := by
  rw [methodName?, methodName?, methodNameSlot_untyped]

namespace Scope

theorem method_untyped (scope : Scope) {n : Node} (hregular : n.Everywhere Regular)
    (declaringType : String) :
    scope.method? n.untyped declaringType = scope.method? n declaringType := by
  have hname : methodName? n.untyped = (methodName? n).map id := by
    rw [methodName_untyped, Option.map_id_fun, id]
  rw [respelling_untyped.method scope hregular hname]
  cases scope.method? n declaringType <;> rfl

/-! ### The known classes -/

section
variable {scope scope' : Scope} (h : scope'.resolveName = scope.resolveName)
include h

theorem resolveTree_congr : scope'.resolveTree = scope.resolveTree := by
  funext tree
  rw [resolveTree, resolveTree, h]

theorem childType_congr : scope'.childType = scope.childType := by
  funext n
  rw [childType, childType, resolveTree_congr h]

theorem parameterType_congr : scope'.parameterType = scope.parameterType := by
  funext n
  rw [parameterType, parameterType, childType_congr h]

/-- A declaration has the same signature in scopes in which names mean the same types. -/
theorem method_congr (n : Node) (declaringType : String) :
    scope'.method? n declaringType = scope.method? n declaringType := by
  rw [method?, method?, childType_congr h, parameterType_congr h]

theorem declaredVariables_congr : scope'.declaredVariables = scope.declaredVariables := by
  funext n infer
  rw [declaredVariables, declaredVariables, resolveTree_congr h]

end

theorem resolveName_known (scope : Scope) {known : List String}
    (h : ∀ name, name ∈ known ↔ name ∈ scope.known) :
    ({ scope with known } : Scope).resolveName = scope.resolveName := by
  have hcontains : known.contains = scope.known.contains := by
    funext name
    rw [Bool.eq_iff_iff, List.contains_iff_mem, List.contains_iff_mem]
    exact h name
  have hsimple : ({ scope with known } : Scope).resolveSimple = scope.resolveSimple := by
    funext name
    simp only [resolveSimple, firstKnown?, hcontains]
  funext name
  simp only [resolveName, hsimple, congrFun hcontains]

theorem addImport_known (scope : Scope) (known : List String) (clause : Node) :
    ({ scope with known } : Scope).addImport clause = { scope.addImport clause with known } := by
  rw [addImport, addImport]
  split
  · rfl
  · rfl
  · split <;> rfl

theorem ofUnit_known (unit : Node) (known known' : List String) :
    ofUnit unit known' = { ofUnit unit known with known := known' } := by
  have hfold : ∀ (clauses : List Node) (scope : Scope),
      clauses.foldl addImport { scope with known := known' } =
        { clauses.foldl addImport scope with known := known' } := by
    intro clauses
    induction clauses with
    | nil => exact fun _ => rfl
    | cons clause clauses ih =>
        intro scope
        rw [List.foldl_cons, List.foldl_cons, addImport_known, ih]
  exact hfold _ { known, package := packageOf unit }

theorem known_ofUnit (unit : Node) (known : List String) : (ofUnit unit known).known = known := by
  rw [ofUnit_known unit [] known]

end Scope

/-! ### The classes of a table -/

namespace SymbolTable

theorem mem_insert {table : SymbolTable} {c d : ClassSymbol} (h : d ∈ (table.insert c).classes) :
    d ∈ table.classes ∨ d = c := by
  rcases List.mem_append.1 h with h | h
  · exact .inl (List.mem_filter.1 h).1
  · exact .inr (List.mem_singleton.1 h)

theorem mem_insertAll {symbols : List ClassSymbol} {table : SymbolTable} {d : ClassSymbol}
    (h : d ∈ (symbols.foldl insert table).classes) : d ∈ table.classes ∨ d ∈ symbols := by
  induction symbols generalizing table with
  | nil => exact .inl h
  | cons c symbols ih =>
      rcases ih h with h | h
      · rcases mem_insert h with h | rfl
        · exact .inl h
        · exact .inr List.mem_cons_self
      · exact .inr (List.mem_cons_of_mem _ h)

theorem mem_names_insert {table : SymbolTable} {c : ClassSymbol} {name : String} :
    name ∈ (table.insert c).classes.map ClassSymbol.name ↔
      name ∈ table.classes.map ClassSymbol.name ∨ name = c.name := by
  rw [insert, List.map_append, List.mem_append, List.map_singleton, List.mem_singleton]
  constructor
  · rintro (h | h)
    · obtain ⟨d, hd, rfl⟩ := List.mem_map.1 h
      exact .inl (List.mem_map_of_mem (List.mem_filter.1 hd).1)
    · exact .inr h
  · rintro (h | h)
    · obtain ⟨d, hd, rfl⟩ := List.mem_map.1 h
      by_cases hname : d.name = c.name
      · exact .inr hname
      · exact .inl (List.mem_map_of_mem (List.mem_filter.2 ⟨hd, by simpa using hname⟩))
    · exact .inr h

theorem mem_names_insertAll {symbols : List ClassSymbol} {table : SymbolTable} {name : String} :
    name ∈ (symbols.foldl insert table).classes.map ClassSymbol.name ↔
      name ∈ table.classes.map ClassSymbol.name ∨ name ∈ symbols.map ClassSymbol.name := by
  induction symbols generalizing table with
  | nil => simp
  | cons c symbols ih =>
      rw [List.foldl_cons, ih, mem_names_insert, List.map_cons, List.mem_cons, or_assoc]

theorem mem_of_class {table : SymbolTable} {name : String} {c : ClassSymbol}
    (h : table.class? name = some c) : c ∈ table.classes :=
  List.mem_of_find?_eq_some h

theorem mem_of_lineage {table : SymbolTable} {name : String} {c : ClassSymbol}
    (h : c ∈ table.lineage name) : c ∈ table.classes := by
  have hwithin : ∀ (limit : Nat) (seen : List ClassSymbol) (names : List String),
      (∀ d ∈ seen, d ∈ table.classes) →
        ∀ d ∈ table.lineageWithin limit seen names, d ∈ table.classes := by
    intro limit
    induction limit with
    | zero =>
        intro seen names hseen
        rwa [lineageWithin]
    | succ limit ih =>
        intro seen names hseen
        cases names with
        | nil => exact hseen
        | cons name rest =>
            rw [lineageWithin]
            cases hclass : table.class? name with
            | none => exact ih seen rest hseen
            | some c =>
                simp only
                split_ifs
                · exact ih seen rest hseen
                · refine ih _ _ fun d hd => ?_
                  rcases List.mem_append.1 hd with hd | hd
                  · exact hseen d hd
                  · rw [List.mem_singleton.1 hd]
                    exact mem_of_class hclass
  exact hwithin _ _ _ (fun _ hd => absurd hd List.not_mem_nil) c h

/-- The method that a call means is one of a class of the table, and has the name of the call. -/
theorem mem_of_findMethod {table : SymbolTable} {owner name : String} {arguments : List TypeRef}
    {m : Signature} (h : table.findMethod? owner name arguments = some m) :
    (∃ c ∈ table.classes, m ∈ c.methods) ∧ m.name = name := by
  have hmem : m ∈ table.candidates owner name := by
    simp only [findMethod?] at h
    cases hfixed : (table.candidates owner name).find? fun m => table.fitsFixed m arguments with
    | some fixed =>
        rw [hfixed] at h
        cases h
        exact List.mem_of_find?_eq_some hfixed
    | none =>
        rw [hfixed] at h
        exact List.mem_of_find?_eq_some h
  obtain ⟨c, hc, hm⟩ := List.mem_flatMap.1 hmem
  obtain ⟨hm, hname⟩ := List.mem_filter.1 hm
  exact ⟨⟨c, mem_of_lineage hc, hm⟩, by simpa using hname⟩

end SymbolTable

/-! ### The members of a declared class -/

theorem mem_methods_addMember {scope : Scope} {c : ClassSymbol} {member : Node} {m : Signature}
    (h : m ∈ (c.addMember scope member).methods) :
    m ∈ c.methods ∨
      member.kind = .java .methodDeclaration ∧ scope.method? member c.name = some m := by
  rw [ClassSymbol.addMember] at h
  split at h
  · rename_i hkind
    rcases List.mem_append.1 h with h | h
    · exact .inl h
    · exact .inr ⟨hkind, by simpa using h⟩
  · exact .inl h
  · exact .inl h
  · exact .inl h

namespace DeclaredClass

theorem symbol_name (scope : Scope) (c : DeclaredClass) : (c.symbol scope).name = c.name := by
  have hfold : ∀ (inside : Scope) (nodes : List Node) (s : ClassSymbol),
      (nodes.foldl (ClassSymbol.addMember inside) s).name = s.name := by
    intro inside nodes
    induction nodes with
    | nil => exact fun _ => rfl
    | cons n nodes ih =>
        intro s
        rw [List.foldl_cons, ih, addMember_name]
  exact hfold _ _ _

theorem mem_methods_symbol {scope : Scope} {c : DeclaredClass} {m : Signature}
    (h : m ∈ (c.symbol scope).methods) :
    ∃ member ∈ members c.node, member.kind = .java .methodDeclaration ∧
      (c.inside scope).method? member c.name = some m := by
  have hfold : ∀ (nodes : List Node) (s : ClassSymbol), s.name = c.name →
      m ∈ (nodes.foldl (ClassSymbol.addMember (c.inside scope)) s).methods →
        m ∈ s.methods ∨ ∃ member ∈ nodes, member.kind = .java .methodDeclaration ∧
          (c.inside scope).method? member c.name = some m := by
    intro nodes
    induction nodes with
    | nil => exact fun _ _ h => .inl h
    | cons n nodes ih =>
        intro s hs h
        rcases ih _ ((addMember_name _ s n).trans hs) h with h | ⟨member, hmember, h⟩
        · rcases mem_methods_addMember h with h | ⟨hkind, h⟩
          · exact .inl h
          · exact .inr ⟨n, List.mem_cons_self, hkind, hs ▸ h⟩
        · exact .inr ⟨member, List.mem_cons_of_mem _ hmember, h⟩
  rcases hfold _ _ rfl h with h | h
  · cases h
  · exact h

end DeclaredClass

theorem names_unitSymbols (known : List String) (unit : Node) :
    (unitSymbols known unit).map ClassSymbol.name = (unitClasses unit).map DeclaredClass.name := by
  rw [unitSymbols, List.map_map]
  exact List.map_congr_left fun d _ => d.symbol_name _

theorem names_symbols (known : List String) (units : List Node) :
    (units.flatMap (unitSymbols known)).map ClassSymbol.name = knownClasses units := by
  rw [List.map_flatMap, knownClasses]
  simp only [names_unitSymbols]

theorem mem_known {units : List Node} {name : String} :
    name ∈ (SymbolTable.ofUnits units).classes.map ClassSymbol.name ↔ name ∈ knownClasses units := by
  rw [SymbolTable.ofUnits, SymbolTable.mem_names_insertAll, names_symbols]
  simp

/-- The scope of a unit in its source set. -/
def unitScope (units : List Node) (unit : Node) : Scope :=
  .ofUnit unit ((SymbolTable.ofUnits units).classes.map ClassSymbol.name)

theorem DeclaredClass.resolveName_inside (d : DeclaredClass) {known known' : List String}
    (h : ∀ name, name ∈ known' ↔ name ∈ known) (unit : Node) :
    (d.inside (.ofUnit unit known')).resolveName = (d.inside (.ofUnit unit known)).resolveName := by
  rw [Scope.ofUnit_known unit known known']
  refine Scope.resolveName_known (d.inside (.ofUnit unit known)) fun name => ?_
  show _ ↔ name ∈ (Scope.ofUnit unit known).known
  rw [Scope.known_ofUnit, h]

/-- A method has the same signature whether the table or the declarations say which classes are
known. -/
theorem method_unitScope (units : List Node) (unit : Node) (d : DeclaredClass) (member : Node) :
    (d.inside (unitScope units unit)).method? member d.name =
      (d.inside (.ofUnit unit (knownClasses units))).method? member d.name :=
  Scope.method_congr (d.resolveName_inside (fun _ => mem_known) unit) member d.name

/-- Each method of the table of some units is the signature of a member of a class that one of them
declares. -/
theorem declares_of_mem {units : List Node} {c : ClassSymbol} {m : Signature}
    (hc : c ∈ (SymbolTable.ofUnits units).classes) (hm : m ∈ c.methods) :
    ∃ unit ∈ units, ∃ d ∈ unitClasses unit, ∃ member ∈ members d.node,
      member.kind = .java .methodDeclaration ∧
        (d.inside (unitScope units unit)).method? member d.name = some m := by
  rcases SymbolTable.mem_insertAll hc with h | h
  · cases h
  · obtain ⟨unit, hunit, hsymbol⟩ := List.mem_flatMap.1 h
    obtain ⟨d, hd, rfl⟩ := List.mem_map.1 hsymbol
    obtain ⟨member, hmember, hkind, hmethod⟩ := DeclaredClass.mem_methods_symbol hm
    exact ⟨unit, hunit, d, hd, member, hmember, hkind,
      (method_unitScope units unit d member).trans hmethod⟩

/-- What attribution found out about the nodes of a unit is no part of its symbols. -/
theorem unitSymbols_untyped (known : List String) {unit : Node} (hregular : unit.Everywhere Regular)
    (hnameless : IsNameless unit.kind) : unitSymbols known unit.untyped = unitSymbols known unit := by
  rw [respelling_untyped.unitSymbols (g := id) hregular hnameless fun d hd member hmember _ => ?_]
  · simp
  · rw [Option.map_id_fun, id, Scope.method_untyped]
    exact fun m hm => hregular m (mem_preorder_trans hm
      (mem_preorder_trans (mem_preorder_of_member hmember) (mem_preorder_of_unitClasses hd)))

/-! ### Characters outside of names -/

/-- The character stands neither in identifiers nor in dotted names. -/
def OutsideNames (ch : Char) : Prop :=
  continuesWord ch = false ∧ ch ≠ '.' ∧ ch ≠ '*'

instance (ch : Char) : Decidable (OutsideNames ch) :=
  inferInstanceAs (Decidable (_ ∧ _))

theorem outside_of_qualify {ch : Char} (hch : OutsideNames ch) {outer name : String}
    (houter : ch ∉ outer.toList) (hname : ch ∉ name.toList) : ch ∉ (qualify outer name).toList := by
  rw [qualify]
  split_ifs
  · exact hname
  · simp [houter, hname, hch.2.1]

theorem mem_dotted {ts : List Token} (hts : Dotted ts) {t : Token} (ht : t ∈ ts) :
    t.kind = .identifier ∨ t.text = "." := by
  induction hts with
  | part h =>
      obtain rfl := List.mem_singleton.1 ht
      exact .inl h.1
  | snoc _ hdot h ih =>
      simp only [List.mem_append, List.mem_cons, List.not_mem_nil, or_false] at ht
      rcases ht with ht | rfl | rfl
      · exact ih ht
      · exact .inr hdot
      · exact .inl h.1

section
variable {source : String} {unit : Node} (h : parseUnit source = .ok unit) {ch : Char}
  (hch : OutsideNames ch)
include h hch

theorem outside_of_identifier {t : Token} (ht : t ∈ unit.leaves) (hkind : t.kind = .identifier) :
    ch ∉ t.text.toList := by
  intro hmem
  have hword := (genuine_of_leaf h ht (by simp [hkind])).word hkind _ hmem
  exact absurd (hword.symm.trans hch.1) (by decide)

theorem outside_of_className {n : Node} (hn : n ∈ unit.preorder) {simple : String}
    (hname : className? n = some simple) : ch ∉ simple.toList := by
  obtain ⟨t, hfound, rfl⟩ := Option.map_eq_some_iff.1 hname
  have hkind : t.kind = .identifier := by simpa using List.find?_some hfound
  obtain ⟨e, he, htoken⟩ := List.mem_filterMap.1 (List.mem_of_find?_eq_some hfound)
  cases e with
  | node c => cases htoken
  | token u =>
      cases htoken
      exact outside_of_identifier h hch (mem_leaves.2 ⟨n, hn, he⟩) hkind

theorem outside_of_packageOf : ch ∉ (packageOf unit).toList := by
  rw [packageOf]
  cases hclause : unit.firstChild? (.java .packageClause) with
  | none => simp
  | some clause =>
      rw [Option.bind_some, qualifiedName?]
      cases hname : clause.firstChild? (.java .qualifiedName) with
      | none => simp
      | some name =>
          have hmem : name ∈ unit.preorder :=
            mem_preorder.2 (.inr ⟨clause, mem_childNodes.1 (List.mem_of_find?_eq_some hclause),
              mem_preorder.2 (.inr ⟨name, mem_childNodes.1 (List.mem_of_find?_eq_some hname),
                mem_preorder_self name⟩)⟩)
          have hkind : name.kind = .java .qualifiedName := by simpa using List.find?_some hname
          have hidentifier : ∀ t ∈ name.leaves, t.kind = .identifier → ch ∉ t.text.toList := by
            intro t ht
            obtain ⟨m, hm, ht⟩ := mem_leaves.1 ht
            exact outside_of_identifier h hch (mem_leaves.2 ⟨m, mem_preorder_trans hm hmem, ht⟩)
          have htexts : ∀ ts : List Token, name.children = ts.map .token →
              (∀ t ∈ ts, t.kind = .identifier ∨ t.text = "." ∨ t.text = "*") →
                ch ∉ name.bareText.toList := by
            intro ts hts hall hmem
            rw [toList_bareText hts, characters, List.mem_flatMap] at hmem
            obtain ⟨t, ht, hmem⟩ := hmem
            rcases hall t ht with hkind | htext | htext
            · exact hidentifier t (mem_leaves.2 ⟨name, mem_preorder_self name, by simp [hts, ht]⟩)
                hkind hmem
            · rw [htext] at hmem
              exact hch.2.1 (List.mem_singleton.1 hmem)
            · rw [htext] at hmem
              exact hch.2.2 (List.mem_singleton.1 hmem)
          obtain ⟨ts, hts, hchildren | ⟨dot, star, hdot, hstar, hchildren⟩⟩ :=
            formed_of_parseUnit h name hmem _ hkind
          · exact htexts ts hchildren fun t ht => (mem_dotted hts ht).imp_right .inl
          · refine htexts _ hchildren fun t ht => ?_
            simp only [List.mem_append, List.mem_cons, List.not_mem_nil, or_false] at ht
            rcases ht with ht | rfl | rfl
            · exact (mem_dotted hts ht).imp_right .inl
            · exact .inr (.inl hdot)
            · exact .inr (.inr hstar)

theorem outside_of_declared {d : DeclaredClass} (hd : d ∈ unitClasses unit) :
    ch ∉ d.name.toList := by
  have hpackage := outside_of_packageOf h hch
  suffices hall : ∀ n ∈ unit.preorder, ∀ outer : List String, (∀ o ∈ outer, ch ∉ o.toList) →
      d ∈ declaredClasses (packageOf unit) outer n → ch ∉ d.name.toList by
    obtain ⟨c, hc, hd⟩ := mem_declaredClassesList.1 hd
    exact hall c (mem_preorder.2 (.inr ⟨c, hc, mem_preorder_self c⟩)) [] (by simp) hd
  intro n
  induction n using Node.induction_on with
  | step n ih =>
      intro hn outer houter hd
      have hbelow : ∀ outer : List String, (∀ o ∈ outer, ch ∉ o.toList) →
          d ∈ declaredClassesList (packageOf unit) outer n.children → ch ∉ d.name.toList := by
        intro outer houter hd
        obtain ⟨c, hc, hd⟩ := mem_declaredClassesList.1 hd
        have hchild : c ∈ n.preorder := mem_preorder.2 (.inr ⟨c, hc, mem_preorder_self c⟩)
        exact ih c hc (mem_preorder_trans hchild hn) outer houter hd
      rcases of_mem_declaredClasses hd with ⟨simple, hname, hd⟩ | hd
      · have hfull : ch ∉ (qualify (outer.head?.getD (packageOf unit)) simple).toList := by
          refine outside_of_qualify hch ?_ (outside_of_className h hch hn hname)
          cases outer with
          | nil => exact hpackage
          | cons o outer => exact houter o List.mem_cons_self
        rcases hd with rfl | hd
        · exact hfull
        · exact hbelow _ (List.forall_mem_cons.2 ⟨hfull, houter⟩) hd
      · exact hbelow outer houter hd

end

theorem outside_of_class {units : List Node}
    (hunits : ∀ unit ∈ units, ∃ source, parseUnit source = .ok unit) {ch : Char}
    (hch : OutsideNames ch) {c : ClassSymbol} (hc : c ∈ (SymbolTable.ofUnits units).classes) :
    ch ∉ c.name.toList := by
  rcases SymbolTable.mem_insertAll hc with h | h
  · cases h
  · obtain ⟨unit, hunit, hsymbol⟩ := List.mem_flatMap.1 h
    obtain ⟨d, hd, rfl⟩ := List.mem_map.1 hsymbol
    obtain ⟨source, hsource⟩ := hunits unit hunit
    rw [DeclaredClass.symbol_name]
    exact outside_of_declared hsource hch hd

theorem paren_of_class {units : List Node}
    (hunits : ∀ unit ∈ units, ∃ source, parseUnit source = .ok unit) {c : ClassSymbol}
    (hc : c ∈ (SymbolTable.ofUnits units).classes) : '(' ∉ c.name.toList :=
  outside_of_class hunits (by decide) hc

end Codemod.Java
