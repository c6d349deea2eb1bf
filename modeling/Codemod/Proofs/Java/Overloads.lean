import Codemod.Proofs.Java.Tables
import Mathlib.Data.List.Forall2

/-!
Which of the overloads of a method a call means. The search goes through the class in front of its
supertypes, and through a class in the order of its declarations; it stops at the first method that
takes the arguments, whether or not a later one has exactly their types. So arguments of the types
that a method declares select it just where no method of its name that stands in front of it takes
them too.
-/

namespace Codemod.Java

open Codemod.Tree

namespace SymbolTable

/-- Values of the first type can be given where the second is asked for. -/
inductive Converts (table : SymbolTable) : TypeRef → TypeRef → Prop where
  | fromUnknown (p : TypeRef) : Converts table .unknown p
  | toUnknown (a : TypeRef) : Converts table a .unknown
  | primitive (a : String) : Converts table (.primitive a) (.primitive a)
  | numeric {a p : String} (ha : a ∈ numericTypes) (hp : p ∈ numericTypes) :
      Converts table (.primitive a) (.primitive p)
  | toObject (a : TypeRef) : Converts table a (.named "java.lang.Object")
  | box {a p : String} (h : boxed? a = some p) : Converts table (.primitive a) (.named p)
  | unbox {a p : String} (h : boxed? p = some a) : Converts table (.named a) (.primitive p)
  | simple {a p : String} (h : simpleName a = simpleName p) : Converts table (.named a) (.named p)
  | subtype {a p : String} (h : ∃ c ∈ table.lineage a, c.name = p) :
      Converts table (.named a) (.named p)
  | array {a p : TypeRef} (h : Converts table a p) : Converts table (.array a) (.array p)

variable {table : SymbolTable}

theorem assignable_iff (a p : TypeRef) : table.assignable a p = true ↔ table.Converts a p := by
  constructor
  · intro h
    fun_induction SymbolTable.assignable table a p with
    | case1 p => exact .fromUnknown p
    | case2 a => exact .toUnknown a
    | case3 a p =>
        simp only [Bool.or_eq_true, Bool.and_eq_true, beq_iff_eq, List.contains_iff_mem] at h
        obtain rfl | ⟨ha, hp⟩ := h
        · exact .primitive a
        · exact .numeric ha hp
    | case4 a p =>
        simp only [Bool.or_eq_true, beq_iff_eq] at h
        obtain rfl | h := h
        · exact .toObject _
        · exact .box h
    | case5 a p => exact .unbox (beq_iff_eq.1 h)
    | case6 a p =>
        simp only [Bool.or_eq_true, beq_iff_eq, isSubtype, List.any_eq_true] at h
        obtain ((rfl | rfl) | h) | h := h
        · exact .toObject _
        · exact .simple rfl
        · exact .simple h
        · exact .subtype h
    | case7 a p ih => exact .array (ih h)
    | case8 a p =>
        obtain rfl := beq_iff_eq.1 h
        exact .toObject _
    | case9 => cases h
    | case10 => cases h
    | case11 => cases h
  · intro h
    induction h with
    | fromUnknown p => rw [SymbolTable.assignable]
    | toUnknown a => cases a <;> rfl
    | primitive a => simp [SymbolTable.assignable]
    | numeric ha hp => simp [SymbolTable.assignable, ha, hp]
    | toObject a => cases a <;> simp [SymbolTable.assignable]
    | box h => simp [SymbolTable.assignable, h]
    | unbox h => simp [SymbolTable.assignable, h]
    | simple h => simp [SymbolTable.assignable, h]
    | subtype h =>
        simp only [SymbolTable.assignable, isSubtype, Bool.or_eq_true, List.any_eq_true, beq_iff_eq]
        exact .inr h
    | array _ ih => rwa [SymbolTable.assignable]

theorem Converts.refl (type : TypeRef) : table.Converts type type := by
  induction type with
  | primitive name => exact .primitive name
  | named name => exact .simple rfl
  | array element ih => exact .array ih
  | unknown => exact .fromUnknown _

/-- The method is called so and takes the arguments one by one. -/
def Takes (table : SymbolTable) (name : String) (arguments : List TypeRef) (m : Signature) : Prop :=
  m.name = name ∧ List.Forall₂ table.Converts arguments m.parameters

theorem fitsFixed_iff {m : Signature} {arguments : List TypeRef} :
    table.fitsFixed m arguments = true ↔ List.Forall₂ table.Converts arguments m.parameters := by
  rw [fitsFixed, allAssignable, List.forall₂_iff_zip, Bool.and_eq_true, beq_iff_eq, List.all_eq_true,
    eq_comm]
  refine and_congr_right fun _ => ⟨fun h a p hmem => ?_, fun h pair hmem => ?_⟩
  · exact (assignable_iff a p).1 (h (a, p) hmem)
  · exact (assignable_iff pair.1 pair.2).2 (h hmem)

theorem takes_self (table : SymbolTable) (m : Signature) : table.Takes m.name m.parameters m :=
  ⟨rfl, List.forall₂_same.2 fun type _ => .refl type⟩

/-! ### The search -/

theorem prefix_lineageWithin (limit : Nat) (seen : List ClassSymbol) (names : List String) :
    seen <+: table.lineageWithin limit seen names := by
  induction limit generalizing seen names with
  | zero => exact List.prefix_rfl
  | succ limit ih =>
      cases names with
      | nil => exact List.prefix_rfl
      | cons name rest =>
          rw [lineageWithin]
          cases table.class? name with
          | none => exact ih seen rest
          | some c =>
              simp only
              split_ifs
              · exact ih seen rest
              · exact (List.prefix_append seen [c]).trans (ih _ _)

theorem lineage_of_class {name : String} {c : ClassSymbol} (h : table.class? name = some c) :
    ∃ supertypes, table.lineage name = c :: supertypes := by
  rw [lineage, lineageWithin, h]
  obtain ⟨supertypes, hsupertypes⟩ : [c] <+: table.lineageWithin
      (table.classes.flatMap ClassSymbol.supertypes).length [c] (c.supertypes ++ []) :=
    prefix_lineageWithin _ _ _
  exact ⟨supertypes, hsupertypes.symm⟩

theorem findMethod_of_takes {name method : String} {arguments : List TypeRef} {c : ClassSymbol}
    {earlier later : List Signature} {found : Signature} (hc : table.class? name = some c)
    (hmethods : c.methods = earlier ++ found :: later) (hfound : table.Takes method arguments found)
    (hearlier : ∀ m ∈ earlier, ¬table.Takes method arguments m) :
    table.findMethod? name method arguments = some found := by
  obtain ⟨supertypes, hlineage⟩ := lineage_of_class hc
  have hcandidates : table.candidates name method =
      earlier.filter (fun m => m.name == method) ++ found ::
        (later.filter (fun m => m.name == method) ++
          supertypes.flatMap fun d => d.methods.filter fun m => m.name == method) := by
    simp [candidates, hlineage, hmethods, hfound.1]
  have hnone : (earlier.filter fun m => m.name == method).find?
      (fun m => table.fitsFixed m arguments) = none := by
    refine List.find?_eq_none.2 fun m hm hfits => ?_
    obtain ⟨hm, hname⟩ := List.mem_filter.1 hm
    exact hearlier m hm ⟨beq_iff_eq.1 hname, fitsFixed_iff.1 hfits⟩
  have hfits : table.fitsFixed found arguments = true := fitsFixed_iff.2 hfound.2
  have hfirst : (table.candidates name method).find? (fun m => table.fitsFixed m arguments) =
      some found := by
    rw [hcandidates, List.find?_append, hnone, Option.none_or, List.find?_cons, hfits]
  rw [findMethod?, hfirst]
  rfl

/-! ### Source sets -/

theorem nodup_insert {c : ClassSymbol} (h : (table.classes.map ClassSymbol.name).Nodup) :
    ((table.insert c).classes.map ClassSymbol.name).Nodup := by
  rw [insert, List.map_append, List.nodup_append]
  refine ⟨h.sublist (List.filter_sublist.map _), List.nodup_singleton _, ?_⟩
  rintro name hname _ hc rfl
  obtain ⟨d, hd, rfl⟩ := List.mem_map.1 hname
  have hother := (List.mem_filter.1 hd).2
  simp_all

theorem nodup_ofUnits (units : List Node) :
    ((ofUnits units).classes.map ClassSymbol.name).Nodup := by
  have hfold : ∀ (symbols : List ClassSymbol) (table : SymbolTable),
      (table.classes.map ClassSymbol.name).Nodup →
        ((symbols.foldl insert table).classes.map ClassSymbol.name).Nodup := by
    intro symbols
    induction symbols with
    | nil => exact fun _ h => h
    | cons c symbols ih => exact fun table h => ih (table.insert c) (nodup_insert h)
  exact hfold _ {} List.nodup_nil

end SymbolTable

/-- Arguments of the types that a method declares always select a method of its class: the first one
of its name that takes them, at the latest the method itself. Where no other method of its name
declares the same types, what is selected has its types exactly if no method of its name in front of
it takes them. -/
theorem findMethod_declared (units : List Node) {c : ClassSymbol} {before behind : List Signature}
    {m : Signature} (hc : c ∈ (SymbolTable.ofUnits units).classes)
    (hmethods : c.methods = before ++ m :: behind)
    (hsingle : ∀ other ∈ before ++ behind, other.name = m.name → other.parameters ≠ m.parameters) :
    let table := SymbolTable.ofUnits units
    ∃ earlier found later, before ++ [m] = earlier ++ found :: later ∧
      table.findMethod? c.name m.name m.parameters = some found ∧
      table.Takes m.name m.parameters found ∧
      (∀ other ∈ earlier, ¬table.Takes m.name m.parameters other) ∧
      (found.parameters = m.parameters ↔
        ∀ other ∈ before, ¬table.Takes m.name m.parameters other) := by
  intro table
  have hclass : table.class? c.name = some c :=
    (SymbolTable.class_eq_some (SymbolTable.nodup_ofUnits units)).2 ⟨hc, rfl⟩
  by_cases hbefore : ∀ other ∈ before, ¬table.Takes m.name m.parameters other
  · refine ⟨before, m, [], rfl, ?_, table.takes_self m, hbefore, ⟨fun _ => hbefore, fun _ => rfl⟩⟩
    exact SymbolTable.findMethod_of_takes hclass hmethods (table.takes_self m) hbefore
  · classical
    obtain ⟨found, hfind⟩ : ∃ found,
        before.find? (fun other => table.Takes m.name m.parameters other) = some found := by
      rw [← Option.isSome_iff_exists, List.find?_isSome]
      simpa using hbefore
    obtain ⟨htakes, earlier, later, hsplit, hearlier⟩ := List.find?_eq_some_iff_append.1 hfind
    have htakes : table.Takes m.name m.parameters found := by simpa using htakes
    have hearlier : ∀ other ∈ earlier, ¬table.Takes m.name m.parameters other := by
      simpa using hearlier
    have hmem : found ∈ before := hsplit ▸ List.mem_append_right _ List.mem_cons_self
    refine ⟨earlier, found, later ++ [m], by simp [hsplit], ?_, htakes, hearlier, ?_, ?_⟩
    · have hmethods' : c.methods = earlier ++ found :: (later ++ m :: behind) := by
        simp [hmethods, hsplit]
      exact SymbolTable.findMethod_of_takes hclass hmethods' htakes hearlier
    · intro hsame
      exact absurd hsame (hsingle found (List.mem_append_left _ hmem) htakes.1)
    · intro hnone
      exact absurd htakes (hnone found hmem)

/-- A `long` selects the overload for an `int`, where that stands in front of its own. -/
theorem findMethod_declared_narrower :
    let source := "class C \x7b int m(int i) \x7b return i; \x7d long m(long l) \x7b return l; \x7d \x7d"
    ∃ unit, parseUnit source = .ok unit ∧ ∃ found,
      (SymbolTable.ofUnits [unit]).findMethod? "C" "m" [.primitive "long"] = some found ∧
        found.parameters = [.primitive "int"] := by
  intro source
  let narrow : Signature := ⟨"C", "m", [.primitive "int"], .primitive "int", false, false⟩
  let wide : Signature := ⟨"C", "m", [.primitive "long"], .primitive "long", false, false⟩
  have hparses : (parseUnit source).toOption.any (fun unit =>
      (SymbolTable.ofUnits [unit]).classes.any fun c =>
        c.name == "C" && c.methods == [narrow, wide]) = true := by
    decide +kernel
  obtain ⟨unit, hunit, hparses⟩ := exists_ok_of_any hparses
  simp only [List.any_eq_true, Bool.and_eq_true, beq_iff_eq] at hparses
  obtain ⟨c, hc, hname, hmethods⟩ := hparses
  obtain ⟨earlier, found, later, hsplit, hfound, -, -, hexact⟩ :=
    findMethod_declared [unit] hc (show c.methods = [narrow] ++ wide :: [] from hmethods) (by decide)
  have hnarrow : (SymbolTable.ofUnits [unit]).Takes "m" [.primitive "long"] narrow :=
    ⟨rfl, .cons (.numeric (by decide) (by decide)) .nil⟩
  have hother : found.parameters ≠ [.primitive "long"] := fun h =>
    hexact.1 h narrow List.mem_cons_self hnarrow
  have hmem : found ∈ [narrow] ++ [wide] := hsplit ▸ List.mem_append_right _ List.mem_cons_self
  refine ⟨unit, hunit, found, hname ▸ hfound, ?_⟩
  rcases List.mem_cons.1 hmem with rfl | hmem
  · rfl
  · exact absurd (congrArg Signature.parameters (List.mem_singleton.1 hmem)) hother

end Codemod.Java
