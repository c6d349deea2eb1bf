import Codemod.Proofs.Java.Signatures
import Mathlib.Data.List.Nodup
import Mathlib.Data.List.Perm.Basic

/-!
Tables of symbols in another order. What a table tells about a class hangs on the classes that it
finds by their names, and not on the order in which it holds them. The table of a source set that
declares no name twice holds the symbols of its units one after another, so tables of the same units
in another order agree.
-/

namespace Codemod.Java

open Codemod.Tree

namespace SymbolTable

variable {table table' : SymbolTable}

theorem contains_iff {name : String} :
    table.contains name = true ↔ name ∈ table.classes.map ClassSymbol.name := by
  simp only [contains, class?, List.find?_isSome, beq_iff_eq, List.mem_map]

/-- The tables find the same classes by the same names, and a walk to the supertypes takes as many
steps in both. -/
structure Agrees (table table' : SymbolTable) : Prop where
  find : table'.class? = table.class?
  steps : (table'.classes.flatMap ClassSymbol.supertypes).length =
    (table.classes.flatMap ClassSymbol.supertypes).length

theorem class_eq_some (hnames : (table.classes.map ClassSymbol.name).Nodup) {name : String}
    {c : ClassSymbol} : table.class? name = some c ↔ c ∈ table.classes ∧ c.name = name := by
  constructor
  · exact fun h => ⟨mem_of_class h, by simpa using List.find?_some h⟩
  · rintro ⟨hc, rfl⟩
    obtain ⟨d, hd⟩ := Option.isSome_iff_exists.1
      (List.find?_isSome (p := fun d => d.name == c.name).2 ⟨c, hc, beq_self_eq_true c.name⟩)
    have hname : d.name = c.name := by simpa using List.find?_some hd
    rw [List.inj_on_of_nodup_map hnames (List.mem_of_find?_eq_some hd) hc hname] at hd
    exact hd

theorem agrees_of_perm (hperm : table'.classes.Perm table.classes)
    (hnames : (table.classes.map ClassSymbol.name).Nodup) : table.Agrees table' where
  find := by
    have hnames' := (hperm.map ClassSymbol.name).nodup_iff.2 hnames
    funext name
    refine Option.ext fun c => ?_
    rw [class_eq_some hnames, class_eq_some hnames', hperm.mem_iff]
  steps := (hperm.flatMap_right ClassSymbol.supertypes).length_eq

namespace Agrees

variable (h : table.Agrees table')
include h

theorem contains : table'.contains = table.contains := by
  funext name
  rw [SymbolTable.contains, SymbolTable.contains, h.find]

theorem mem_names {name : String} :
    name ∈ table'.classes.map ClassSymbol.name ↔ name ∈ table.classes.map ClassSymbol.name := by
  rw [← contains_iff, ← contains_iff, h.contains]

theorem lineage : table'.lineage = table.lineage := by
  have hwithin : ∀ limit seen names,
      table'.lineageWithin limit seen names = table.lineageWithin limit seen names := by
    intro limit
    induction limit with
    | zero =>
        intro seen names
        rw [lineageWithin, lineageWithin]
    | succ limit ih =>
        intro seen names
        cases names with
        | nil => rfl
        | cons name rest =>
            rw [lineageWithin, lineageWithin, h.find]
            simp only [ih]
  funext name
  rw [SymbolTable.lineage, SymbolTable.lineage, h.steps, hwithin]

theorem field : table'.field? = table.field? := by
  funext name field
  rw [field?, field?, h.lineage]

theorem assignable (a p : TypeRef) : table'.assignable a p = table.assignable a p := by
  have hsubtype : table'.isSubtype = table.isSubtype := by
    funext name ancestor
    rw [isSubtype, isSubtype, h.lineage]
  fun_induction SymbolTable.assignable table a p <;>
    simp_all [SymbolTable.assignable]

theorem findMethod : table'.findMethod? = table.findMethod? := by
  funext name method arguments
  have hall : table'.allAssignable = table.allAssignable := by
    funext arguments parameters
    simp only [allAssignable, h.assignable]
  have hfixed : table'.fitsFixed = table.fitsFixed := by
    funext m arguments
    rw [fitsFixed, fitsFixed, hall]
  have hvariable : table'.fitsVariable = table.fitsVariable := by
    funext m arguments
    simp only [fitsVariable, hall, h.assignable]
  simp only [findMethod?, candidates, h.lineage, hfixed, hvariable]

end Agrees

/-! ### Tables without a name twice -/

theorem insert_new {c : ClassSymbol} (hname : c.name ∉ table.classes.map ClassSymbol.name) :
    (table.insert c).classes = table.classes ++ [c] := by
  rw [insert, List.filter_eq_self.2 fun d hd => ?_]
  simp only [bne_iff_ne, ne_eq]
  exact fun heq => hname (heq ▸ List.mem_map_of_mem hd)

theorem insertAll_new {symbols : List ClassSymbol}
    (hnames : ((table.classes ++ symbols).map ClassSymbol.name).Nodup) :
    (symbols.foldl insert table).classes = table.classes ++ symbols := by
  induction symbols generalizing table with
  | nil => simp
  | cons c symbols ih =>
      have hsplit : table.classes ++ c :: symbols = (table.classes ++ [c]) ++ symbols := by simp
      have hnew : c.name ∉ table.classes.map ClassSymbol.name := by
        rw [List.map_append, List.nodup_append] at hnames
        exact fun hmem => hnames.2.2 _ hmem _ (List.mem_map_of_mem List.mem_cons_self) rfl
      rw [hsplit, ← insert_new hnew] at hnames ⊢
      exact ih hnames

end SymbolTable

/-! ### The symbols of a unit -/

theorem addMember_congr {scope scope' : Scope} (h : scope'.resolveName = scope.resolveName) :
    ClassSymbol.addMember scope' = ClassSymbol.addMember scope := by
  funext c member
  simp only [ClassSymbol.addMember, Scope.method_congr h, Scope.declaredVariables_congr h]

theorem DeclaredClass.symbol_congr {scope scope' : Scope} (d : DeclaredClass)
    (h : (d.inside scope').resolveName = (d.inside scope).resolveName) :
    d.symbol scope' = d.symbol scope := by
  show (members d.node).foldl (ClassSymbol.addMember (d.inside scope'))
    { name := d.name
      supertypes := (supertypeTrees d.node).filterMap fun t =>
        ((d.inside scope').resolveTree t).className? } = _
  rw [addMember_congr h, Scope.resolveTree_congr h]
  rfl

theorem unitSymbols_known {known known' : List String}
    (h : ∀ name, name ∈ known' ↔ name ∈ known) (unit : Node) :
    unitSymbols known' unit = unitSymbols known unit :=
  List.map_congr_left fun d _ => d.symbol_congr (d.resolveName_inside h unit)

theorem classes_ofUnits {units : List Node} (hnames : (knownClasses units).Nodup) :
    (SymbolTable.ofUnits units).classes = units.flatMap (unitSymbols (knownClasses units)) := by
  rw [SymbolTable.ofUnits, SymbolTable.insertAll_new]
  · rfl
  · rwa [List.nil_append, names_symbols]

theorem agrees_ofUnits {units units' : List Node} (hperm : units'.Perm units)
    (hnames : (knownClasses units).Nodup) :
    (SymbolTable.ofUnits units).Agrees (.ofUnits units') := by
  have hknown : (knownClasses units').Perm (knownClasses units) := hperm.flatMap_right _
  have hsymbols : unitSymbols (knownClasses units') = unitSymbols (knownClasses units) :=
    funext fun unit => unitSymbols_known (fun _ => hknown.mem_iff) unit
  refine SymbolTable.agrees_of_perm ?_ ?_
  · rw [classes_ofUnits hnames, classes_ofUnits (hknown.nodup_iff.2 hnames), hsymbols]
    exact hperm.flatMap_right _
  · rwa [classes_ofUnits hnames, names_symbols]

end Codemod.Java
