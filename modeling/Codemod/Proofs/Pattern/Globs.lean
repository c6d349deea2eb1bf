import Codemod.Pattern.Method
import Mathlib.Data.List.Forall2

/-!
What globs and lists of parameter patterns match. The matchers try what an asterisk or a run of any
parameters may stand for, from the shortest on. What they accept is said here without a search: each
character of a glob and each pattern of a list has its part of what is matched, and the parts follow each
other.
-/

namespace Codemod.Pattern

open Codemod.Java (TypeRef)

/-! ### Globs -/

/-- The name is spelled by the glob, with a run of characters other than a dot for each asterisk. -/
inductive Glob : List Char → List Char → Prop where
  | done : Glob [] []
  | run {glob run rest name : List Char} (hname : name = run ++ rest) (hrun : '.' ∉ run)
      (h : Glob glob rest) : Glob ('*' :: glob) name
  | literal {c : Char} {glob name : List Char} (hc : c ≠ '*') (h : Glob glob name) :
      Glob (c :: glob) (c :: name)

theorem behindRun_iff {p : List Char → Bool} {name : List Char} :
    behindRun p name = true ↔ ∃ run rest, name = run ++ rest ∧ '.' ∉ run ∧ p rest = true := by
  induction name with
  | nil =>
      rw [behindRun]
      exact ⟨fun h => ⟨[], [], rfl, List.not_mem_nil, h⟩, fun ⟨run, rest, hname, _, h⟩ => by
        rwa [(List.append_eq_nil_iff.1 hname.symm).2] at h⟩
  | cons c name ih =>
      simp only [behindRun, Bool.or_eq_true, Bool.and_eq_true, bne_iff_ne, ne_eq, ih]
      constructor
      · rintro (h | ⟨hc, run, rest, rfl, hrun, h⟩)
        · exact ⟨[], c :: name, rfl, List.not_mem_nil, h⟩
        · exact ⟨c :: run, rest, rfl, by simpa using ⟨Ne.symm hc, hrun⟩, h⟩
      · rintro ⟨run, rest, hname, hrun, h⟩
        cases run with
        | nil => exact .inl (by rwa [hname])
        | cons d run =>
            obtain ⟨rfl, rfl⟩ := List.cons.inj hname
            rw [List.mem_cons, not_or] at hrun
            exact .inr ⟨Ne.symm hrun.1, run, rest, rfl, hrun.2, h⟩

theorem globMatches_iff {glob name : List Char} : globMatches glob name = true ↔ Glob glob name := by
  induction glob generalizing name with
  | nil =>
      rw [globMatches, List.isEmpty_iff]
      constructor
      · rintro rfl
        exact .done
      · intro h
        cases h
        rfl
  | cons g glob ih =>
      by_cases hg : g = '*'
      · subst hg
        have hrun : globMatches ('*' :: glob) name = behindRun (globMatches glob) name := by
          rw [globMatches.eq_def]
          rfl
        rw [hrun, behindRun_iff]
        constructor
        · rintro ⟨run, rest, hname, hrun, h⟩
          exact .run hname hrun (ih.1 h)
        · intro h
          cases h with
          | run hname hrun h => exact ⟨_, _, hname, hrun, ih.2 h⟩
          | literal hc _ => contradiction
      · cases name with
        | nil =>
            have hnone : globMatches (g :: glob) [] = false := by
              rw [globMatches.eq_def]
              exact if_neg hg
            rw [hnone]
            refine iff_of_false (by simp) fun h => ?_
            cases h
            contradiction
        | cons c name =>
            have hliteral : globMatches (g :: glob) (c :: name) =
                (decide (g = c) && globMatches glob name) := by
              rw [globMatches.eq_def]
              exact if_neg hg
            rw [hliteral, Bool.and_eq_true, decide_eq_true_eq, ih]
            constructor
            · rintro ⟨rfl, h⟩
              exact .literal hg h
            · intro h
              cases h with
              | run => contradiction
              | literal _ h => exact ⟨rfl, h⟩

theorem Glob.without (glob : List Char) : Glob glob (glob.filter (· != '*')) := by
  induction glob with
  | nil => exact .done
  | cons g glob ih =>
      by_cases hg : g = '*'
      · subst hg
        exact .run rfl List.not_mem_nil ih
      · rw [List.filter_cons_of_pos (by simpa using hg)]
        exact .literal hg ih

theorem Glob.append_iff {front glob name : List Char} (hfront : '*' ∉ front) :
    Glob (front ++ glob) name ↔ ∃ rest, name = front ++ rest ∧ Glob glob rest := by
  induction front generalizing name with
  | nil => simp
  | cons c front ih =>
      rw [List.mem_cons, not_or] at hfront
      constructor
      · intro h
        cases h with
        | run => exact absurd rfl hfront.1
        | literal _ h =>
            obtain ⟨rest, rfl, hrest⟩ := (ih hfront.2).1 h
            exact ⟨rest, rfl, hrest⟩
      · rintro ⟨rest, rfl, h⟩
        exact .literal (Ne.symm hfront.1) ((ih hfront.2).2 ⟨rest, rfl, h⟩)

theorem Glob.eq_iff {glob name : List Char} (h : '*' ∉ glob) : Glob glob name ↔ name = glob := by
  have hiff : Glob (glob ++ []) name ↔ _ := Glob.append_iff h
  rw [List.append_nil] at hiff
  rw [hiff]
  constructor
  · rintro ⟨rest, rfl, hrest⟩
    cases hrest
    exact List.append_nil glob
  · rintro rfl
    exact ⟨[], (List.append_nil name).symm, .done⟩

/-- The name of a type is one that the element of a pattern stands for: it is spelled by the element, or,
if the element has no dot and is no primitive type, it is so behind that of the implicit package. -/
def Names (element name : List Char) : Prop :=
  Glob element name ∨ '.' ∉ element ∧ String.ofList element ∉ Java.primitives ∧
    ∃ simple, name = implicitPackage ++ simple ∧ Glob element simple

theorem elementMatches_iff {element : List Char} {name : String} :
    elementMatches element name = true ↔ Names element name.toList := by
  have hpackage : '*' ∉ implicitPackage := by decide
  simp only [elementMatches, Bool.or_eq_true, Bool.and_eq_true, Bool.not_eq_true', globMatches_iff,
    List.contains_eq_mem, decide_eq_false_iff_not, Glob.append_iff hpackage, Names, and_assoc]

/-! ### Parameters -/

/-- The types are what one pattern of a parameter list stands for. -/
inductive Replaces : ParameterPattern → List TypeRef → Prop where
  | run (types : List TypeRef) : Replaces .anyRun types
  | one (type : TypeRef) : Replaces .anyOne [type]
  | named {element : List Char} {name : String} (h : Names element name.toList) (dimensions : Nat) :
      Replaces (.type element dimensions) [(TypeRef.named name).arrays dimensions]
  | primitive {element : List Char} {name : String} (h : Names element name.toList)
      (dimensions : Nat) :
      Replaces (.type element dimensions) [(TypeRef.primitive name).arrays dimensions]

theorem arrayParts_arrays (type : TypeRef) (n : Nat) (h : type.arrayParts = (type, 0)) :
    (type.arrays n).arrayParts = (type, n) := by
  induction n with
  | zero => exact h
  | succ n ih => rw [TypeRef.arrays, TypeRef.arrayParts, ih]

/-- A pattern other than a run stands for one type. -/
theorem accepts_iff {pattern : ParameterPattern} (hrun : pattern ≠ .anyRun) {types : List TypeRef} :
    Replaces pattern types ↔ ∃ type, types = [type] ∧ pattern.accepts type = true := by
  constructor
  · intro h
    cases h with
    | run => contradiction
    | one type => exact ⟨type, rfl, rfl⟩
    | named h dimensions =>
        refine ⟨_, rfl, ?_⟩
        simp [ParameterPattern.accepts, arrayParts_arrays (.named _) dimensions rfl,
          elementMatches_iff, h]
    | primitive h dimensions =>
        refine ⟨_, rfl, ?_⟩
        simp [ParameterPattern.accepts, arrayParts_arrays (.primitive _) dimensions rfl,
          elementMatches_iff, h]
  · rintro ⟨type, rfl, h⟩
    cases pattern with
    | anyRun => contradiction
    | anyOne => exact .one type
    | type element dimensions =>
        simp only [ParameterPattern.accepts, Bool.and_eq_true, beq_iff_eq] at h
        obtain ⟨hdimensions, hmatches⟩ := h
        rw [← type.arrays_arrayParts, hdimensions]
        cases hbase : type.arrayParts.1 with
        | primitive name =>
            rw [hbase] at hmatches
            exact .primitive (elementMatches_iff.1 hmatches) dimensions
        | named name =>
            rw [hbase] at hmatches
            exact .named (elementMatches_iff.1 hmatches) dimensions
        | array element => simp [hbase] at hmatches
        | unknown => simp [hbase] at hmatches

theorem behindSome_iff {α : Type} {p : List α → Bool} {as : List α} :
    behindSome p as = true ↔ ∃ front rest, as = front ++ rest ∧ p rest = true := by
  induction as with
  | nil =>
      rw [behindSome]
      exact ⟨fun h => ⟨[], [], rfl, h⟩, fun ⟨front, rest, has, h⟩ => by
        rwa [(List.append_eq_nil_iff.1 has.symm).2] at h⟩
  | cons a as ih =>
      rw [behindSome, Bool.or_eq_true, ih]
      constructor
      · rintro (h | ⟨front, rest, rfl, h⟩)
        · exact ⟨[], a :: as, rfl, h⟩
        · exact ⟨a :: front, rest, rfl, h⟩
      · rintro ⟨front, rest, has, h⟩
        cases front with
        | nil => exact .inl (by rwa [has])
        | cons b front =>
            obtain ⟨rfl, rfl⟩ := List.cons.inj has
            exact .inr ⟨front, rest, rfl, h⟩

/-- The types are those that the patterns stand for, one after another. -/
def ReplacesAll (patterns : List ParameterPattern) (types : List TypeRef) : Prop :=
  ∃ parts, List.Forall₂ Replaces patterns parts ∧ types = parts.flatten

theorem replacesAll_nil {types : List TypeRef} : ReplacesAll [] types ↔ types = [] := by
  constructor
  · rintro ⟨parts, h, rfl⟩
    cases h
    rfl
  · rintro rfl
    exact ⟨[], .nil, rfl⟩

theorem replacesAll_cons {pattern : ParameterPattern} {patterns : List ParameterPattern}
    {types : List TypeRef} : ReplacesAll (pattern :: patterns) types ↔
      ∃ front rest, types = front ++ rest ∧ Replaces pattern front ∧ ReplacesAll patterns rest := by
  constructor
  · rintro ⟨parts, h, rfl⟩
    obtain ⟨front, others, hfront, hothers, rfl⟩ := List.forall₂_cons_left_iff.1 h
    exact ⟨front, others.flatten, rfl, hfront, others, hothers, rfl⟩
  · rintro ⟨front, rest, rfl, hfront, others, hothers, rfl⟩
    exact ⟨front :: others, .cons hfront hothers, rfl⟩

theorem parametersMatch_iff {patterns : List ParameterPattern} {types : List TypeRef} :
    parametersMatch patterns types = true ↔ ReplacesAll patterns types := by
  induction patterns generalizing types with
  | nil => rw [parametersMatch, replacesAll_nil, List.isEmpty_iff]
  | cons pattern patterns ih =>
      rw [replacesAll_cons]
      by_cases hrun : pattern = .anyRun
      · rw [hrun, parametersMatch, behindSome_iff]
        constructor
        · rintro ⟨front, rest, htypes, h⟩
          exact ⟨front, rest, htypes, .run front, ih.1 h⟩
        · rintro ⟨front, rest, htypes, -, h⟩
          exact ⟨front, rest, htypes, ih.2 h⟩
      · simp only [accepts_iff hrun]
        cases types with
        | nil =>
            have hfalse : parametersMatch (pattern :: patterns) [] = false := by
              cases pattern <;> first | contradiction | rfl
            rw [hfalse]
            exact iff_of_false (by simp) (by simp)
        | cons type types =>
            have hcons : parametersMatch (pattern :: patterns) (type :: types) =
                (pattern.accepts type && parametersMatch patterns types) := by
              cases pattern <;> first | contradiction | rfl
            rw [hcons, Bool.and_eq_true, ih]
            constructor
            · rintro ⟨haccepts, h⟩
              exact ⟨[type], types, rfl, ⟨type, rfl, haccepts⟩, h⟩
            · rintro ⟨front, rest, htypes, ⟨type', rfl, haccepts⟩, h⟩
              obtain ⟨rfl, rfl⟩ := List.cons.inj htypes
              exact ⟨haccepts, h⟩

end Codemod.Pattern
