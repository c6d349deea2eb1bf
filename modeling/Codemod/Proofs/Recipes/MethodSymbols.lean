import Codemod.Proofs.Recipes.MethodRespelling

/-!
The table of symbols behind a renaming: that of the sources with selected methods under their new
name. A call under its name behind the renaming finds in it the method that it found before.
-/

namespace Codemod.Recipes.MethodName

open Codemod.Tree Codemod.Java

namespace Renaming

/-- The symbol of a class with selected methods under the new name. -/
def renamedClass (r : Renaming) (c : ClassSymbol) : ClassSymbol :=
  { c with methods := c.methods.map r.renamed }

/-- The table with selected methods under the new name. -/
def renamedTable (r : Renaming) (table : SymbolTable) : SymbolTable :=
  ⟨table.classes.map r.renamedClass⟩

variable {r : Renaming} {table : SymbolTable}

theorem renamed_eq (m : Signature) : r.renamed m = { m with name := (r.renamed m).name } := by
  rw [renamed]
  split_ifs <;> rfl

@[simp] theorem parameters_renamed (m : Signature) : (r.renamed m).parameters = m.parameters := by
  rw [renamed_eq]

@[simp] theorem returns_renamed (m : Signature) : (r.renamed m).returns = m.returns := by
  rw [renamed_eq]

@[simp] theorem isStatic_renamed (m : Signature) : (r.renamed m).isStatic = m.isStatic := by
  rw [renamed_eq]

@[simp] theorem isVarargs_renamed (m : Signature) : (r.renamed m).isVarargs = m.isVarargs := by
  rw [renamed_eq]

/-! ### Classes -/

theorem names_renamedTable :
    (r.renamedTable table).classes.map ClassSymbol.name = table.classes.map ClassSymbol.name := by
  rw [renamedTable, List.map_map]
  rfl

theorem class_renamedTable (name : String) :
    (r.renamedTable table).class? name = (table.class? name).map r.renamedClass := by
  rw [SymbolTable.class?, SymbolTable.class?, renamedTable, List.find?_map]
  rfl

theorem contains_renamedTable (name : String) :
    (r.renamedTable table).contains name = table.contains name := by
  rw [SymbolTable.contains, SymbolTable.contains, class_renamedTable, Option.isSome_map]

theorem lineage_renamedTable (name : String) :
    (r.renamedTable table).lineage name = (table.lineage name).map r.renamedClass := by
  have hwithin : ∀ (limit : Nat) (seen : List ClassSymbol) (names : List String),
      (r.renamedTable table).lineageWithin limit (seen.map r.renamedClass) names =
        (table.lineageWithin limit seen names).map r.renamedClass := by
    intro limit
    induction limit with
    | zero =>
        intro seen names
        rw [SymbolTable.lineageWithin, SymbolTable.lineageWithin]
    | succ limit ih =>
        intro seen names
        cases names with
        | nil => rfl
        | cons name rest =>
            rw [SymbolTable.lineageWithin, SymbolTable.lineageWithin, class_renamedTable]
            cases table.class? name with
            | none => exact ih seen rest
            | some c =>
                have hseen : ((seen.map r.renamedClass).any fun d => d.name == (r.renamedClass c).name) =
                    seen.any fun d => d.name == c.name := by
                  rw [List.any_map]
                  rfl
                simp only [Option.map_some, hseen]
                split_ifs
                · exact ih seen rest
                · rw [← ih (seen ++ [c]), List.map_append]
                  rfl
  have hlimit : (r.renamedTable table).classes.flatMap ClassSymbol.supertypes =
      table.classes.flatMap ClassSymbol.supertypes := by
    rw [renamedTable, List.flatMap_map]
    rfl
  rw [SymbolTable.lineage, hlimit]
  exact hwithin _ [] [name]

theorem field_renamedTable (name field : String) :
    (r.renamedTable table).field? name field = table.field? name field := by
  rw [SymbolTable.field?, SymbolTable.field?, lineage_renamedTable, List.findSome?_map]
  rfl

theorem isSubtype_renamedTable (name ancestor : String) :
    (r.renamedTable table).isSubtype name ancestor = table.isSubtype name ancestor := by
  rw [SymbolTable.isSubtype, SymbolTable.isSubtype, lineage_renamedTable, List.any_map]
  rfl

/-! ### Arguments -/

theorem assignable_renamedTable (a p : TypeRef) :
    (r.renamedTable table).assignable a p = table.assignable a p := by
  fun_induction SymbolTable.assignable table a p <;>
    simp_all [SymbolTable.assignable, isSubtype_renamedTable]

theorem allAssignable_renamedTable (arguments parameters : List TypeRef) :
    (r.renamedTable table).allAssignable arguments parameters =
      table.allAssignable arguments parameters := by
  simp only [SymbolTable.allAssignable, assignable_renamedTable]

theorem fitsFixed_renamed (m : Signature) (arguments : List TypeRef) :
    (r.renamedTable table).fitsFixed (r.renamed m) arguments = table.fitsFixed m arguments := by
  rw [SymbolTable.fitsFixed, SymbolTable.fitsFixed, allAssignable_renamedTable, parameters_renamed]

theorem fitsVariable_renamed (m : Signature) (arguments : List TypeRef) :
    (r.renamedTable table).fitsVariable (r.renamed m) arguments =
      table.fitsVariable m arguments := by
  simp only [SymbolTable.fitsVariable, allAssignable_renamedTable, parameters_renamed,
    assignable_renamedTable]

/-! ### Methods -/

/-- The first of some methods whose parameters the arguments fit one by one, else the first that
takes any number of them. -/
def chosen? (table : SymbolTable) (arguments : List TypeRef) (methods : List Signature) :
    Option Signature :=
  (methods.find? fun m => table.fitsFixed m arguments) <|>
    methods.find? fun m => m.isVarargs && table.fitsVariable m arguments

/-- The methods of a class and its supertypes. -/
def inherited (table : SymbolTable) (owner : String) : List Signature :=
  (table.lineage owner).flatMap ClassSymbol.methods

theorem findMethod_eq (owner name : String) (arguments : List TypeRef) :
    table.findMethod? owner name arguments =
      chosen? table arguments ((inherited table owner).filter fun m => m.name == name) := by
  rw [SymbolTable.findMethod?, SymbolTable.candidates, inherited, List.filter_flatMap]
  rfl

theorem inherited_renamedTable (owner : String) :
    inherited (r.renamedTable table) owner = (inherited table owner).map r.renamed := by
  rw [inherited, lineage_renamedTable, List.flatMap_map, inherited, List.map_flatMap]
  rfl

theorem chosen_map_renamed (arguments : List TypeRef) (methods : List Signature) :
    chosen? (r.renamedTable table) arguments (methods.map r.renamed) =
      (chosen? table arguments methods).map r.renamed := by
  rw [chosen?, chosen?, List.find?_map, List.find?_map]
  simp only [Function.comp_def, fitsFixed_renamed, fitsVariable_renamed, isVarargs_renamed]
  cases methods.find? fun m => table.fitsFixed m arguments <;> rfl

theorem find_filter {α : Type} {p q : α → Bool} {xs : List α} {a : α} (h : xs.find? q = some a)
    (hp : p a = true) : (xs.filter p).find? q = some a := by
  obtain ⟨hq, front, behind, rfl, hfront⟩ := List.find?_eq_some_iff_append.1 h
  refine List.find?_eq_some_iff_append.2 ⟨hq, front.filter p, behind.filter p, ?_, ?_⟩
  · rw [List.filter_append, List.filter_cons_of_pos hp]
  · exact fun b hb => hfront b (List.mem_filter.1 hb).1

theorem find_filter_none {α : Type} {p q : α → Bool} {xs : List α} (h : xs.find? q = none) :
    (xs.filter p).find? q = none :=
  List.find?_eq_none.2 fun a ha => List.find?_eq_none.1 h a (List.mem_filter.1 ha).1

theorem chosen_filter {arguments : List TypeRef} {methods : List Signature} {m : Signature}
    {p : Signature → Bool} (h : chosen? table arguments methods = some m) (hp : p m = true) :
    chosen? table arguments (methods.filter p) = some m := by
  rw [chosen?] at h ⊢
  cases hfixed : methods.find? fun m => table.fitsFixed m arguments with
  | some m' =>
      rw [hfixed] at h
      cases h
      rw [find_filter hfixed hp]
      rfl
  | none =>
      rw [hfixed] at h
      rw [find_filter_none hfixed]
      exact find_filter h hp

theorem chosen_filter_none {arguments : List TypeRef} {methods : List Signature}
    (p : Signature → Bool) (h : chosen? table arguments methods = none) :
    chosen? table arguments (methods.filter p) = none := by
  rw [chosen?] at h ⊢
  cases hfixed : methods.find? fun m => table.fitsFixed m arguments with
  | some m' =>
      rw [hfixed] at h
      cases h
  | none =>
      rw [hfixed] at h
      rw [find_filter_none hfixed]
      exact find_filter_none h

/-- Each method that has one name behind the renaming had the other name before it. -/
def ComesFrom (r : Renaming) (table : SymbolTable) (name' name : String) : Prop :=
  ∀ c ∈ table.classes, ∀ m ∈ c.methods, (r.renamed m).name = name' → m.name = name

theorem findMethod_renamedTable {name name' : String} (hname : r.ComesFrom table name' name)
    (owner : String) (arguments : List TypeRef) :
    (r.renamedTable table).findMethod? owner name' arguments =
      (chosen? table arguments (((inherited table owner).filter fun m => m.name == name).filter
        fun m => (r.renamed m).name == name')).map r.renamed := by
  rw [findMethod_eq, inherited_renamedTable, List.filter_map, chosen_map_renamed, List.filter_filter]
  congr 2
  refine List.filter_congr fun m hm => ?_
  obtain ⟨c, hc, hm⟩ := List.mem_flatMap.1 hm
  rw [Function.comp_apply, Bool.eq_iff_iff]
  simp only [Bool.and_eq_true, beq_iff_eq]
  exact ⟨fun h => ⟨h, hname c (SymbolTable.mem_of_lineage hc) m hm h⟩, And.left⟩

theorem findMethod_renamed {owner name : String} {arguments : List TypeRef} {m : Signature}
    (hname : r.ComesFrom table (r.renamed m).name name)
    (h : table.findMethod? owner name arguments = some m) :
    (r.renamedTable table).findMethod? owner (r.renamed m).name arguments = some (r.renamed m) := by
  rw [findMethod_eq] at h
  rw [findMethod_renamedTable hname, chosen_filter h (by simp)]
  rfl

theorem findMethod_renamed_none {owner name name' : String} {arguments : List TypeRef}
    (hname : r.ComesFrom table name' name) (h : table.findMethod? owner name arguments = none) :
    (r.renamedTable table).findMethod? owner name' arguments = none := by
  rw [findMethod_eq] at h
  rw [findMethod_renamedTable hname, chosen_filter_none _ h]
  rfl

/-! ### The classes of a unit -/

/-- A declaration that carries its signature carries it under its name behind the renaming. -/
theorem method_respell {symbols : SymbolTable} {scope : Scope} {declaringType : String}
    {member : Node} (hregular : member.Everywhere Regular) (hspelled : Spelled symbols member)
    (hkind : member.kind = .java .methodDeclaration)
    (hsigned : member.type? = (scope.method? member declaringType).map .method) :
    scope.method? (r.respell member) declaringType =
      (scope.method? member declaringType).map r.renamed := by
  have hmethod := fun {f} hname =>
    (respelling_respell r).method scope hregular (f := f) hname declaringType
  cases hm : scope.method? member declaringType with
  | none =>
      rw [hm] at hsigned hmethod
      refine hmethod (f := id) ?_
      rw [respell_of_untyped hsigned, Option.map_id_fun, id]
      exact methodName_skeleton (by rfl) (skeleton_mapNode kind_respell member.children)
  | some m =>
      rw [hm] at hsigned hmethod
      have hname := name_of_method hm
      have hname' := (carried_respell (r := r) (by rw [hkind]; decide) hspelled hsigned rfl).2
      rw [hmethod (f := fun _ => (r.renamed m).name) (by rw [hname', hname]; rfl), Option.map_some,
        ← renamed_eq]
      rfl

end Renaming

end Codemod.Recipes.MethodName
