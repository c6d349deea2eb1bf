import Codemod.Proofs.Java.Overloads
import Mathlib.Data.List.Flatten
import Mathlib.Logic.Relation

/-!
The search for the supertypes of a class. It keeps the classes that it has seen and the names that it
has still to visit, and a name may wait there many times: classes may extend each other in a cycle, and
two of them a common one. A class is seen once and only then its supertypes are added, so each step
spends one of the names that wait or that unseen classes can still add. What is seen is reached from the
class by its supertypes, and when no name waits, all that is reached has been seen.
-/

namespace Codemod.Java

namespace SymbolTable

variable {table : SymbolTable}

/-- The class is that of the name, or reached from it by supertypes that the table has. -/
inductive Reached (table : SymbolTable) (name : String) : ClassSymbol → Prop where
  | self {c : ClassSymbol} (h : table.class? name = some c) : Reached table name c
  | supertype {c d : ClassSymbol} {ancestor : String} (h : Reached table name c)
      (hsuper : ancestor ∈ c.supertypes) (hd : table.class? ancestor = some d) : Reached table name d

/-- How far a search has come. -/
structure Search where
  seen : List ClassSymbol
  pending : List String

/-- One step of a search visits the first name that waits. -/
inductive Step (table : SymbolTable) : Search → Search → Prop where
  | unknown {seen : List ClassSymbol} {name : String} {rest : List String}
      (h : table.class? name = none) : Step table ⟨seen, name :: rest⟩ ⟨seen, rest⟩
  | again {seen : List ClassSymbol} {name : String} {rest : List String} {c : ClassSymbol}
      (h : table.class? name = some c) (hseen : c.name ∈ seen.map ClassSymbol.name) :
      Step table ⟨seen, name :: rest⟩ ⟨seen, rest⟩
  | first {seen : List ClassSymbol} {name : String} {rest : List String} {c : ClassSymbol}
      (h : table.class? name = some c) (hseen : c.name ∉ seen.map ClassSymbol.name) :
      Step table ⟨seen, name :: rest⟩ ⟨seen ++ [c], c.supertypes ++ rest⟩

theorem name_of_class {name : String} {c : ClassSymbol} (h : table.class? name = some c) :
    c.name = name := by
  simpa using List.find?_some h

/-! ### A search ends -/

/-- The classes of the table that a search has not seen. -/
def unseen (table : SymbolTable) (seen : List ClassSymbol) : List ClassSymbol :=
  table.classes.filter fun c => c.name ∉ seen.map ClassSymbol.name

/-- The steps that a search can still take. -/
def budget (table : SymbolTable) (s : Search) : Nat :=
  s.pending.length + ((table.unseen s.seen).flatMap ClassSymbol.supertypes).length

theorem budget_start (name : String) :
    table.budget ⟨[], [name]⟩ = (table.classes.flatMap ClassSymbol.supertypes).length + 1 := by
  simp [budget, unseen, Nat.add_comm]

theorem supertypes_unseen {seen : List ClassSymbol} {c : ClassSymbol} (hc : c ∈ table.classes)
    (hseen : c.name ∉ seen.map ClassSymbol.name) :
    c.supertypes.length + ((table.unseen (seen ++ [c])).flatMap ClassSymbol.supertypes).length ≤
      ((table.unseen seen).flatMap ClassSymbol.supertypes).length := by
  have hmem : c ∈ table.unseen seen := List.mem_filter.2 ⟨hc, by simpa using hseen⟩
  have hfilter : table.unseen (seen ++ [c]) = (table.unseen seen).filter fun d => d.name ≠ c.name := by
    rw [unseen, unseen, List.filter_filter]
    congr 1
    funext d
    simp [or_comm]
  obtain ⟨before, behind, hsplit⟩ := List.append_of_mem hmem
  have hsub : (table.unseen (seen ++ [c])).Sublist (before ++ behind) := by
    rw [hfilter, hsplit, List.filter_append, List.filter_cons_of_neg (by simp)]
    exact List.filter_sublist.append List.filter_sublist
  have hlength := (hsub.flatMap ClassSymbol.supertypes).length_le
  rw [hsplit]
  simp only [List.flatMap_append, List.flatMap_cons, List.length_append] at hlength ⊢
  omega

theorem budget_step {s s' : Search} (h : table.Step s s') : table.budget s' < table.budget s := by
  cases h with
  | unknown => simp [budget]
  | again => simp [budget]
  | first h hseen =>
      have hle := supertypes_unseen (mem_of_class h) hseen
      simp only [budget, List.length_append, List.length_cons]
      omega

theorem wellFounded_step (table : SymbolTable) : WellFounded fun s' s => table.Step s s' :=
  Subrelation.wf budget_step (measure table.budget).wf

theorem lineageWithin_ends {limit : Nat} {seen : List ClassSymbol} {names : List String}
    (hlimit : table.budget ⟨seen, names⟩ ≤ limit) :
    Relation.ReflTransGen table.Step ⟨seen, names⟩ ⟨table.lineageWithin limit seen names, []⟩ := by
  induction limit generalizing seen names with
  | zero =>
      cases names with
      | nil => exact .refl
      | cons name rest => simp [budget] at hlimit
  | succ limit ih =>
      cases names with
      | nil => exact .refl
      | cons name rest =>
          have hnext : ∀ {seen' names'}, table.Step ⟨seen, name :: rest⟩ ⟨seen', names'⟩ →
              Relation.ReflTransGen table.Step ⟨seen, name :: rest⟩
                ⟨table.lineageWithin limit seen' names', []⟩ := fun hstep =>
            .head hstep (ih (by have := budget_step hstep; omega))
          rw [lineageWithin]
          cases hc : table.class? name with
          | none => exact hnext (.unknown hc)
          | some c =>
              have hany : (seen.any fun d => d.name == c.name) = true ↔
                  c.name ∈ seen.map ClassSymbol.name := by
                simp [List.any_eq_true]
              simp only
              split_ifs with hseen
              · exact hnext (.again hc (hany.1 hseen))
              · exact hnext (.first hc (hany.not.1 hseen))

/-! ### What a search has seen -/

theorem Reached.class_name {name : String} {c : ClassSymbol} (h : table.Reached name c) :
    table.class? c.name = some c := by
  cases h with
  | self h => rwa [name_of_class h]
  | supertype _ _ h => rwa [name_of_class h]

/-- What has been seen has been reached, no class twice, and what is one supertype further has been seen
or waits. -/
structure Searched (table : SymbolTable) (name : String) (s : Search) : Prop where
  once : (s.seen.map ClassSymbol.name).Nodup
  seen : ∀ c ∈ s.seen, table.Reached name c
  pending : ∀ next ∈ s.pending, ∀ c, table.class? next = some c → table.Reached name c
  start : ∀ c, table.class? name = some c → c ∈ s.seen ∨ name ∈ s.pending
  further : ∀ c ∈ s.seen, ∀ next ∈ c.supertypes, ∀ d, table.class? next = some d →
    d ∈ s.seen ∨ next ∈ s.pending

theorem searched_start (name : String) : table.Searched name ⟨[], [name]⟩ where
  once := List.nodup_nil
  seen := fun _ h => absurd h List.not_mem_nil
  pending := by
    intro next hnext c hc
    obtain rfl := List.mem_singleton.1 hnext
    exact .self hc
  start := fun _ _ => .inr (List.mem_singleton_self name)
  further := fun _ h => absurd h List.not_mem_nil

theorem Searched.drop {name next : String} {seen : List ClassSymbol} {rest : List String}
    (h : table.Searched name ⟨seen, next :: rest⟩)
    (hnext : ∀ c, table.class? next = some c → c ∈ seen) : table.Searched name ⟨seen, rest⟩ := by
  have hmoved : ∀ {other d}, table.class? other = some d → (d ∈ seen ∨ other ∈ next :: rest) →
      d ∈ seen ∨ other ∈ rest := by
    rintro other d hd (hseen | hother)
    · exact .inl hseen
    · rcases List.mem_cons.1 hother with rfl | hother
      · exact .inl (hnext d hd)
      · exact .inr hother
  exact
    { once := h.once
      seen := h.seen
      pending := fun other hother => h.pending other (List.mem_cons_of_mem _ hother)
      start := fun c hc => hmoved hc (h.start c hc)
      further := fun c hc other hother d hd => hmoved hd (h.further c hc other hother d hd) }

theorem Searched.step {name : String} {s s' : Search} (h : table.Searched name s)
    (hstep : table.Step s s') : table.Searched name s' := by
  cases hstep with
  | unknown hnext =>
      refine h.drop fun c hc => ?_
      rw [hnext] at hc
      cases hc
  | @again seen next rest c hc hseen =>
      refine h.drop fun d hd => ?_
      obtain rfl : c = d := Option.some.inj (hc.symm.trans hd)
      obtain ⟨e, he, hname⟩ := List.mem_map.1 hseen
      have hclass := (h.seen e he).class_name
      rw [hname, name_of_class hc, hc] at hclass
      rwa [Option.some.inj hclass]
  | @first seen next rest c hc hseen =>
      have hreached : table.Reached name c := h.pending next List.mem_cons_self c hc
      have hmoved : ∀ {other d}, table.class? other = some d → (d ∈ seen ∨ other ∈ next :: rest) →
          d ∈ seen ++ [c] ∨ other ∈ c.supertypes ++ rest := by
        rintro other d hd (hold | hother)
        · exact .inl (List.mem_append_left _ hold)
        · rcases List.mem_cons.1 hother with rfl | hother
          · exact .inl (List.mem_append_right _ (by simp [Option.some.inj (hd.symm.trans hc)]))
          · exact .inr (List.mem_append_right _ hother)
      refine ⟨?_, fun d hd => ?_, fun other hother d hd => ?_, fun d hd => hmoved hd (h.start d hd),
        fun d hd other hother e he => ?_⟩
      · rw [List.map_append, List.nodup_append]
        refine ⟨h.once, List.nodup_singleton _, fun a ha b hb hab => hseen ?_⟩
        obtain rfl := List.mem_singleton.1 hb
        exact hab ▸ ha
      · rcases List.mem_append.1 hd with hd | hd
        · exact h.seen d hd
        · rwa [List.mem_singleton.1 hd]
      · rcases List.mem_append.1 hother with hother | hother
        · exact .supertype hreached hother hd
        · exact h.pending other (List.mem_cons_of_mem _ hother) d hd
      · rcases List.mem_append.1 hd with hd | hd
        · exact hmoved he (h.further d hd other hother e he)
        · obtain rfl := List.mem_singleton.1 hd
          exact .inr (List.mem_append_left _ hother)

theorem Searched.run {name : String} {s s' : Search} (h : table.Searched name s)
    (hrun : Relation.ReflTransGen table.Step s s') : table.Searched name s' := by
  induction hrun with
  | refl => exact h
  | tail _ hstep ih => exact ih.step hstep

theorem Searched.complete {name : String} {seen : List ClassSymbol} (h : table.Searched name ⟨seen, []⟩)
    {c : ClassSymbol} : c ∈ seen ↔ table.Reached name c := by
  refine ⟨h.seen c, fun hreached => ?_⟩
  induction hreached with
  | self hc => exact (h.start _ hc).resolve_right List.not_mem_nil
  | supertype _ hsuper hd ih => exact (h.further _ ih _ hsuper _ hd).resolve_right List.not_mem_nil

/-! ### Lineages -/

theorem searched_lineage (table : SymbolTable) (name : String) :
    Relation.ReflTransGen table.Step ⟨[], [name]⟩ ⟨table.lineage name, []⟩ ∧
      table.Searched name ⟨table.lineage name, []⟩ := by
  have hends := lineageWithin_ends (Nat.le_of_eq (@budget_start table name))
  exact ⟨hends, (searched_start name).run hends⟩

theorem mem_lineage {name : String} {c : ClassSymbol} :
    c ∈ table.lineage name ↔ table.Reached name c :=
  (searched_lineage table name).2.complete

theorem head_lineage (name : String) : (table.lineage name).head? = table.class? name := by
  cases hc : table.class? name with
  | some c =>
      obtain ⟨supertypes, hlineage⟩ := lineage_of_class hc
      rw [hlineage, List.head?_cons]
  | none =>
      refine List.head?_eq_none_iff.2 (List.eq_nil_iff_forall_not_mem.2 fun c hmem => ?_)
      have hnone : ∀ {d}, ¬table.Reached name d := by
        intro d hd
        induction hd with
        | self h => cases hc.symm.trans h
        | supertype _ _ _ ih => exact ih
      exact hnone (mem_lineage.1 hmem)

theorem isSubtype_iff {name ancestor : String} :
    table.isSubtype name ancestor = true ↔ ∃ c, table.Reached name c ∧ c.name = ancestor := by
  simp [isSubtype, mem_lineage]

theorem isSome_field {name field : String} :
    (table.field? name field).isSome = true ↔
      ∃ c, table.Reached name c ∧ (c.fields.get? field).isSome = true := by
  simp [field?, List.findSome?_isSome_iff, mem_lineage]

theorem mem_candidates {name method : String} {m : Signature} :
    m ∈ table.candidates name method ↔
      m.name = method ∧ ∃ c, table.Reached name c ∧ m ∈ c.methods := by
  simp only [candidates, List.mem_flatMap, List.mem_filter, mem_lineage, beq_iff_eq]
  constructor
  · rintro ⟨c, hc, hm, hname⟩
    exact ⟨hname, c, hc, hm⟩
  · rintro ⟨hname, c, hc, hm⟩
    exact ⟨c, hc, hm, hname⟩

theorem isSome_findMethod {name method : String} {arguments : List TypeRef} :
    (table.findMethod? name method arguments).isSome = true ↔
      ∃ m, (m.name = method ∧ ∃ c, table.Reached name c ∧ m ∈ c.methods) ∧
        (table.fitsFixed m arguments = true ∨
          m.isVarargs = true ∧ table.fitsVariable m arguments = true) := by
  have hor : ∀ a b : Option Signature, (a <|> b).isSome = true ↔ a.isSome = true ∨ b.isSome = true := by
    intro a b
    cases a <;> simp
  simp only [findMethod?, hor, List.find?_isSome, mem_candidates, Bool.and_eq_true, ← exists_or,
    ← and_or_left]

/-- A search for the supertypes of a class ends in every table, whatever its classes extend, and what it
has then seen is the lineage: the classes that are reached from the name, each once, with the class of
that name in front. So a class is a subtype of those it reaches, has their fields, and a call finds a
method exactly if one of them has one that takes the arguments. -/
theorem lineage_reached (table : SymbolTable) (name : String) :
    (WellFounded fun s' s => table.Step s s') ∧
    Relation.ReflTransGen table.Step ⟨[], [name]⟩ ⟨table.lineage name, []⟩ ∧
    ((table.lineage name).map ClassSymbol.name).Nodup ∧
    (∀ c, c ∈ table.lineage name ↔ table.Reached name c) ∧
    (table.lineage name).head? = table.class? name ∧
    (∀ ancestor, table.isSubtype name ancestor = true ↔
      ∃ c, table.Reached name c ∧ c.name = ancestor) ∧
    (∀ field, (table.field? name field).isSome = true ↔
      ∃ c, table.Reached name c ∧ (c.fields.get? field).isSome = true) ∧
    ∀ method arguments, (table.findMethod? name method arguments).isSome = true ↔
      ∃ m, (m.name = method ∧ ∃ c, table.Reached name c ∧ m ∈ c.methods) ∧
        (table.fitsFixed m arguments = true ∨
          m.isVarargs = true ∧ table.fitsVariable m arguments = true) := by
  obtain ⟨hends, hsearched⟩ := searched_lineage table name
  exact ⟨wellFounded_step table, hends, hsearched.once, fun _ => mem_lineage, head_lineage name,
    fun _ => isSubtype_iff, fun _ => isSome_field, fun _ _ => isSome_findMethod⟩

/-- Two classes that extend each other, and one of them itself. -/
example :
    let table : SymbolTable :=
      ⟨[{ name := "A", supertypes := ["B"] }, { name := "B", supertypes := ["B", "A", "C"] }]⟩
    (table.lineage "A").map ClassSymbol.name = ["A", "B"] := by
  decide

end SymbolTable

end Codemod.Java
