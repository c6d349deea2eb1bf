import Codemod.Engine
import Mathlib.Data.Nat.Find
import Mathlib.Logic.Function.Iterate
import Mathlib.Tactic.SplitIfs

/-!
Passes over a file. A pass runs every recipe once, each on the tree that the one before it left. A
recipe may make anything of a tree, and it may hand back one that it has kept. The main statement
says for any recipes at all which answer a file gets: it is settled by the first pass that leaves the
very tree it began with, if that comes in time, and by the last pass otherwise.
-/

namespace Codemod

open Codemod.Tree

namespace Recipe.Rewrite

variable {μ : Type}

/-! ### One pass -/

mutual

/-- A recipe and those below it, in the order in which they run. -/
def preorder : Rewrite μ → List (Rewrite μ)
  | r@⟨_, _, children⟩ => r :: preorderAll children

/-- Some recipes and those below them, in the order in which they run. -/
def preorderAll : List (Rewrite μ) → List (Rewrite μ)
  | [] => []
  | r :: rs => r.preorder ++ preorderAll rs

end

/-- Recipes one after another, each with its own pass only. -/
def inOrder (rs : List (Rewrite μ)) (state : State μ) : State μ :=
  rs.foldl (fun state r => r.applyOwn state) state

theorem inOrder_append (rs rs' : List (Rewrite μ)) (state : State μ) :
    inOrder (rs ++ rs') state = inOrder rs' (inOrder rs state) :=
  List.foldl_append

mutual

theorem apply_eq_inOrder : (r : Rewrite μ) → (state : State μ) →
    r.apply state = inOrder r.preorder state
  | r@⟨_, _, children⟩, state => by
      rw [apply, applyAll_eq_inOrder children, preorder]
      rfl

theorem applyAll_eq_inOrder : (rs : List (Rewrite μ)) → (state : State μ) →
    applyAll rs state = inOrder (preorderAll rs) state
  | [], _ => rfl
  | r :: rs, state => by
      rw [applyAll, applyAll_eq_inOrder rs, apply_eq_inOrder r, preorderAll, inOrder_append]

end

/-- The recipe's own pass hands back another tree than it is given. -/
def Replaces (r : Rewrite μ) (state : State μ) : Prop :=
  (r.applyOwn state).held.place ≠ state.held.place

/-- All that a recipe's own pass can do to the tree at hand and to the names. -/
theorem applyOwn_cases (r : Rewrite μ) (state : State μ) :
    (¬ r.Replaces state ∧ (r.applyOwn state).held = state.held ∧
      (r.applyOwn state).changedBy = state.changedBy) ∨
    (r.Replaces state ∧ (r.applyOwn state).changedBy = state.changedBy ++ [r.name]) := by
  rw [Replaces, applyOwn]
  cases r.pass? with
  | none => exact .inl ⟨fun h => h rfl, rfl, rfl⟩
  | some pass =>
      by_cases hsame : (pass state.held state.memory).1.place = state.held.place
      · simp [hsame]
      · simp [hsame]

/-- The recipe is the first of them whose own pass hands back another tree than it is given. -/
def FirstReplacing (rs : List (Rewrite μ)) (state : State μ) (r : Rewrite μ) : Prop :=
  ∃ before behind, rs = before ++ r :: behind ∧
    (inOrder before state).changedBy = state.changedBy ∧ r.Replaces (inOrder before state)

/-- Recipes add names to those before. If they add none the tree at hand is the very one, and if they
add some the first is that of the first recipe that replaces the tree. -/
theorem inOrder_names (rs : List (Rewrite μ)) (state : State μ) :
    ∃ names, (inOrder rs state).changedBy = state.changedBy ++ names ∧
      (names = [] → (inOrder rs state).held = state.held) ∧
      ∀ name rest, names = name :: rest → ∃ r, FirstReplacing rs state r ∧ r.name = name := by
  induction rs generalizing state with
  | nil => exact ⟨[], (List.append_nil _).symm, fun _ => rfl, nofun⟩
  | cons r rs ih =>
      obtain ⟨names, hnames, hsame, hfirst⟩ := ih (r.applyOwn state)
      obtain ⟨_, hheld, hchanged⟩ | ⟨hreplaces, hchanged⟩ := applyOwn_cases r state
      · refine ⟨names, by rw [← hchanged, ← hnames]; rfl, fun h => (hsame h).trans hheld, ?_⟩
        rintro name rest rfl
        obtain ⟨c, ⟨before, behind, rfl, hbefore, hc⟩, hname⟩ := hfirst name rest rfl
        exact ⟨c, ⟨r :: before, behind, rfl, hbefore.trans hchanged, hc⟩, hname⟩
      · refine ⟨r.name :: names, ?_, nofun, ?_⟩
        · rw [List.append_cons, ← hchanged, ← hnames]
          rfl
        · rintro name rest ⟨⟩
          exact ⟨r, ⟨[], rs, rfl, rfl, hreplaces⟩, rfl⟩

theorem FirstReplacing.names {rs : List (Rewrite μ)} {state : State μ} {r : Rewrite μ}
    (h : FirstReplacing rs state r) :
    ∃ rest, (inOrder rs state).changedBy = state.changedBy ++ r.name :: rest := by
  obtain ⟨before, behind, rfl, hbefore, hreplaces⟩ := h
  obtain ⟨hidle, -⟩ | ⟨-, hchanged⟩ := applyOwn_cases r (inOrder before state)
  · exact absurd hreplaces hidle
  · obtain ⟨rest, hrest, -⟩ := inOrder_names behind (r.applyOwn (inOrder before state))
    refine ⟨rest, ?_⟩
    rw [inOrder_append]
    exact hrest.trans (by rw [hchanged, hbefore, List.append_assoc]; rfl)

/-- One of the recipes is given another tree than that at a place, and hands back that one. -/
def HandsBack (rs : List (Rewrite μ)) (state : State μ) (place : Nat) : Prop :=
  ∃ before r behind, rs = before ++ r :: behind ∧ (inOrder before state).held.place ≠ place ∧
    (r.applyOwn (inOrder before state)).held.place = place

theorem handsBack_of_ne {rs : List (Rewrite μ)} {state : State μ} {place : Nat}
    (hstart : state.held.place ≠ place) (hend : (inOrder rs state).held.place = place) :
    HandsBack rs state place := by
  induction rs generalizing state with
  | nil => exact absurd hend hstart
  | cons r rs ih =>
      by_cases hown : (r.applyOwn state).held.place = place
      · exact ⟨[], r, rs, rfl, hstart, hown⟩
      · obtain ⟨before, c, behind, rfl, hbefore, hc⟩ := ih hown hend
        exact ⟨r :: before, c, behind, rfl, hbefore, hc⟩

/-- Recipes that come back to the tree they began with replace nothing, or one of them hands it
back. -/
theorem handsBack_of_names {rs : List (Rewrite μ)} {state : State μ}
    (hnames : (inOrder rs state).changedBy ≠ state.changedBy)
    (hend : (inOrder rs state).held.place = state.held.place) :
    HandsBack rs state state.held.place := by
  obtain ⟨names, hadded, -, hfirst⟩ := inOrder_names rs state
  cases names with
  | nil => exact absurd (hadded.trans (List.append_nil _)) hnames
  | cons name rest =>
      obtain ⟨r, ⟨before, behind, rfl, hbefore, hreplaces⟩, -⟩ := hfirst name rest rfl
      obtain ⟨names', hadded', hsame, -⟩ := inOrder_names before state
      have hheld : (inOrder before state).held = state.held :=
        hsame (List.self_eq_append_right.1 (hbefore.symm.trans hadded'))
      rw [Replaces, hheld] at hreplaces
      rw [inOrder_append] at hend
      obtain ⟨between, c, after, rfl, hbetween, hc⟩ := handsBack_of_ne hreplaces hend
      exact ⟨before ++ r :: between, c, after, by simp, by rwa [inOrder_append],
        by rwa [inOrder_append]⟩

end Recipe.Rewrite

namespace Engine

open Recipe Source

section
variable {μ : Type} (recipes : List (Rewrite μ))

/-- One pass: every recipe and those below it, one after another. -/
def pass (start : Held × μ) : Rewrite.State μ :=
  Rewrite.applyAll recipes ⟨start.1, [], start.2⟩

/-- The tree at hand and the memory behind so many passes. -/
def behind (start : Held × μ) (k : Nat) : Held × μ :=
  (fun start => ((pass recipes start).held, (pass recipes start).memory))^[k] start

/-- The recipes that replace the tree at hand in the pass that follows so many others. -/
def changersBehind (start : Held × μ) (k : Nat) : List String :=
  (pass recipes (behind recipes start k)).changedBy

/-- The pass that follows so many others leaves the very tree that it begins with. -/
def ReturnsBehind (start : Held × μ) (k : Nat) : Prop :=
  (pass recipes (behind recipes start k)).held.place = (behind recipes start k).1.place

/-- The pass behind `k` others is the first one that leaves the very tree that it begins with. -/
def FirstReturn (start : Held × μ) (k : Nat) : Prop :=
  ReturnsBehind recipes start k ∧ ∀ j < k, ¬ ReturnsBehind recipes start j

/-- The recipe is the first that replaces the tree at hand in the pass that follows so many others. -/
def FirstChanger (start : Held × μ) (k : Nat) (r : Rewrite μ) : Prop :=
  Rewrite.FirstReplacing (Rewrite.preorderAll recipes)
    ⟨(behind recipes start k).1, [], (behind recipes start k).2⟩ r

/-- In the pass that follows so many others a recipe is given another tree than the one that the pass
begins with, and hands back that one. -/
def HandsBackBehind (start : Held × μ) (k : Nat) : Prop :=
  Rewrite.HandsBack (Rewrite.preorderAll recipes)
    ⟨(behind recipes start k).1, [], (behind recipes start k).2⟩ (behind recipes start k).1.place

variable {recipes}

theorem firstReturn_succ {start : Held × μ} {k : Nat} :
    FirstReturn recipes start (k + 1) ↔ ¬ ReturnsBehind recipes start 0 ∧
      FirstReturn recipes (behind recipes start 1) k := by
  constructor
  · rintro ⟨hreturns, hearlier⟩
    exact ⟨hearlier 0 (by omega), hreturns, fun j hj => hearlier (j + 1) (by omega)⟩
  · rintro ⟨hfirst, hreturns, hearlier⟩
    refine ⟨hreturns, fun j hj => ?_⟩
    cases j with
    | zero => exact hfirst
    | succ j => exact hearlier j (by omega)

theorem returnsBehind_of_changers {start : Held × μ} {k : Nat}
    (h : changersBehind recipes start k = []) : ReturnsBehind recipes start k := by
  rw [changersBehind, pass, Rewrite.applyAll_eq_inOrder] at h
  rw [ReturnsBehind, pass, Rewrite.applyAll_eq_inOrder]
  obtain ⟨names, hnames, hsame, -⟩ := Rewrite.inOrder_names (Rewrite.preorderAll recipes)
    ⟨(behind recipes start k).1, [], (behind recipes start k).2⟩
  rw [hsame (by rw [← hnames.symm.trans h]; rfl)]

theorem changers_or_handsBack {start : Held × μ} {k : Nat} (h : ReturnsBehind recipes start k) :
    changersBehind recipes start k = [] ∨ HandsBackBehind recipes start k := by
  rw [or_iff_not_imp_left]
  intro hchangers
  rw [changersBehind, pass, Rewrite.applyAll_eq_inOrder] at hchangers
  rw [ReturnsBehind, pass, Rewrite.applyAll_eq_inOrder] at h
  exact Rewrite.handsBack_of_names hchangers h

theorem FirstChanger.head {start : Held × μ} {k : Nat} {r : Rewrite μ}
    (h : FirstChanger recipes start k r) :
    (changersBehind recipes start k).head? = some r.name := by
  obtain ⟨rest, hrest⟩ := h.names
  rw [changersBehind, pass, Rewrite.applyAll_eq_inOrder, hrest]
  rfl

theorem exists_firstChanger {start : Held × μ} {k : Nat} (h : ¬ ReturnsBehind recipes start k) :
    ∃ r, FirstChanger recipes start k r := by
  obtain ⟨names, hnames, -, hfirst⟩ := Rewrite.inOrder_names (Rewrite.preorderAll recipes)
    ⟨(behind recipes start k).1, [], (behind recipes start k).2⟩
  cases names with
  | nil =>
      refine absurd (returnsBehind_of_changers ?_) h
      rw [changersBehind, pass, Rewrite.applyAll_eq_inOrder, hnames]
      rfl
  | cons name rest =>
      obtain ⟨r, hr, -⟩ := hfirst name rest rfl
      exact ⟨r, hr⟩

/-! ### Names -/

theorem addNew_eraseDups (seen names : List String) :
    addNew seen.eraseDups names = (seen ++ names).eraseDups := by
  induction names generalizing seen with
  | nil => rw [addNew, List.append_nil]
  | cons name rest ih =>
      have hstep : (if seen.eraseDups.contains name then seen.eraseDups
          else seen.eraseDups ++ [name]) = (seen ++ [name]).eraseDups := by
        rw [List.eraseDups_append]
        by_cases h : name ∈ seen <;> simp [List.removeAll, List.eraseDups_cons, h]
      rw [addNew, hstep, ih, List.append_assoc]
      rfl

theorem changers_succ (start : Held × μ) (k : Nat) :
    (List.range (k + 1)).flatMap (changersBehind recipes start) =
      (pass recipes start).changedBy ++
        (List.range k).flatMap (changersBehind recipes (behind recipes start 1)) := by
  rw [List.range_succ_eq_map, List.flatMap_cons, List.flatMap_map]
  rfl

/-! ### All passes -/

/-- Passes over a tree, with their number. -/
def passesCounted (recipes : List (Rewrite μ)) (done : Nat) (names : List String) :
    Nat → Held → μ → Outcome × Nat
  | left, before, memory =>
      let pass := Rewrite.applyAll recipes ⟨before, [], memory⟩
      if pass.held.place = before.place then (.converged pass.held.root names (done + 1), 1)
      else
        match left with
        | 0 => (.diverged (pass.changedBy.head?.getD ""), 1)
        | left + 1 =>
            let (outcome, made) := passesCounted recipes (done + 1) (addNew names pass.changedBy)
              left pass.held pass.memory
            (outcome, made + 1)

/-- What a file's passes are reported as. -/
def conclude (settings : Settings) (file : SourceFile) : Outcome → Except RunError Change
  | .converged root names cycles =>
      .ok
        { path := file.path
          before := file.text
          after := root.print
          changed := root.print != file.text
          recipes := names
          cycles }
  | .diverged recipe => .error (.nonConvergence file.path recipe settings.maxCycles)

/-- What recipes make of a file, with the number of passes made over it. -/
def runHeldCounted (settings : Settings) (recipes : List (Rewrite μ)) (file : SourceFile)
    (place : Nat) (memory : μ) : Except RunError Change × Nat :=
  if file.root.print != file.text then (.error (.printConsistency file.path), 0)
  else
    let (outcome, made) :=
      passesCounted recipes 0 [] settings.maxCycles ⟨place, file.root⟩ memory
    (conclude settings file outcome, made)

theorem passesCounted_fst (done left : Nat) (names : List String) (before : Held) (memory : μ) :
    (passesCounted recipes done names left before memory).1 =
      passes recipes done names left before memory := by
  induction left generalizing done names before memory with
  | zero =>
      unfold passesCounted passes
      dsimp only
      split_ifs <;> rfl
  | succ left ih =>
      unfold passesCounted passes
      dsimp only
      split_ifs
      · rfl
      · exact ih ..

theorem runHeldCounted_fst (settings : Settings) (recipes : List (Rewrite μ)) (file : SourceFile)
    (place : Nat) (memory : μ) :
    (runHeldCounted settings recipes file place memory).1 =
      runHeld settings recipes file place memory := by
  rw [runHeldCounted, runHeld, ← passesCounted_fst]
  split_ifs
  · rfl
  · obtain ⟨outcome, made⟩ :=
      passesCounted recipes 0 [] settings.maxCycles ⟨place, file.root⟩ memory
    cases outcome <;> rfl

theorem passesCounted_of_returns {start : Held × μ} (h : ReturnsBehind recipes start 0)
    (done left : Nat) (names : List String) :
    passesCounted recipes done names left start.1 start.2 =
      (.converged (pass recipes start).held.root names (done + 1), 1) := by
  unfold passesCounted
  exact if_pos h

theorem passesCounted_zero {start : Held × μ} (h : ¬ ReturnsBehind recipes start 0) (done : Nat)
    (names : List String) :
    passesCounted recipes done names 0 start.1 start.2 =
      (.diverged ((changersBehind recipes start 0).head?.getD ""), 1) := by
  unfold passesCounted
  exact if_neg h

theorem passesCounted_succ {start : Held × μ} (h : ¬ ReturnsBehind recipes start 0)
    (done left : Nat) (names : List String) :
    passesCounted recipes done names (left + 1) start.1 start.2 =
      let rest := passesCounted recipes (done + 1) (addNew names (pass recipes start).changedBy) left
        (behind recipes start 1).1 (behind recipes start 1).2
      (rest.1, rest.2 + 1) := by
  rw [passesCounted]
  exact if_neg h

theorem passesCounted_converged {start : Held × μ} {k left : Nat}
    (hreturn : FirstReturn recipes start k) (hk : k ≤ left) (done : Nat) (seen : List String) :
    passesCounted recipes done seen.eraseDups left start.1 start.2 =
      (.converged (pass recipes (behind recipes start k)).held.root
        (seen ++ (List.range k).flatMap (changersBehind recipes start)).eraseDups (done + k + 1),
        k + 1) := by
  induction k generalizing start left done seen with
  | zero =>
      rw [passesCounted_of_returns hreturn.1]
      simp [behind]
  | succ k ih =>
      obtain ⟨hchanges, hreturn⟩ := firstReturn_succ.1 hreturn
      obtain ⟨left, rfl⟩ := Nat.exists_eq_add_of_le' (Nat.le_trans (Nat.le_add_left 1 k) hk)
      rw [passesCounted_succ hchanges, addNew_eraseDups, ih hreturn (by omega), changers_succ,
        List.append_assoc]
      simp only [Nat.add_assoc, Nat.add_comm 1]
      rfl

theorem passesCounted_diverged {start : Held × μ} {left : Nat}
    (hchanges : ∀ j ≤ left, ¬ ReturnsBehind recipes start j) (done : Nat) (names : List String) :
    ∃ r, FirstChanger recipes start left r ∧
      passesCounted recipes done names left start.1 start.2 = (.diverged r.name, left + 1) := by
  induction left generalizing start done names with
  | zero =>
      obtain ⟨r, hr⟩ := exists_firstChanger (hchanges 0 (Nat.le_refl _))
      refine ⟨r, hr, ?_⟩
      rw [passesCounted_zero (hchanges 0 (Nat.le_refl _)), hr.head, Option.getD_some]
  | succ left ih =>
      have hbehind : ∀ j ≤ left, ¬ ReturnsBehind recipes (behind recipes start 1) j :=
        fun j hj => hchanges (j + 1) (by omega)
      obtain ⟨r, hr, hpasses⟩ := ih hbehind (done + 1) (addNew names (pass recipes start).changedBy)
      refine ⟨r, hr, ?_⟩
      rw [passesCounted_succ (hchanges 0 (Nat.zero_le _)), hpasses]

/-! ### The answer for a file -/

/-- The change that a file gets whose passes end with the one behind `k` others. -/
def changeBehind (recipes : List (Rewrite μ)) (file : SourceFile) (start : Held × μ) (k : Nat) :
    Change where
  path := file.path
  before := file.text
  after := (pass recipes (behind recipes start k)).held.root.print
  changed := decide ((pass recipes (behind recipes start k)).held.root.print ≠ file.text)
  recipes := ((List.range k).flatMap (changersBehind recipes start)).eraseDups
  cycles := k + 1

theorem firstReturn_or_changes (start : Held × μ) (n : Nat) :
    (∃ k ≤ n, FirstReturn recipes start k) ∨ ∀ j ≤ n, ¬ ReturnsBehind recipes start j := by
  classical
  by_cases h : ∃ k, k ≤ n ∧ ReturnsBehind recipes start k
  · refine .inl ⟨Nat.find h, (Nat.find_spec h).1, (Nat.find_spec h).2, fun j hj hreturns => ?_⟩
    exact Nat.find_min h hj ⟨Nat.le_trans (Nat.le_of_lt hj) (Nat.find_spec h).1, hreturns⟩
  · exact .inr fun j hj hreturns => h ⟨j, hj, hreturns⟩

theorem FirstReturn.unique {start : Held × μ} {j k : Nat} (hj : FirstReturn recipes start j)
    (hk : FirstReturn recipes start k) : j = k := by
  obtain h | h | h := Nat.lt_trichotomy j k
  · exact absurd hj.1 (hk.2 j h)
  · exact h
  · exact absurd hk.1 (hj.2 k h)

section
variable {settings : Settings} {file : SourceFile} {place : Nat} {memory : μ}

theorem runHeldCounted_inconsistent (h : file.root.print ≠ file.text) :
    runHeldCounted settings recipes file place memory = (.error (.printConsistency file.path), 0) := by
  rw [runHeldCounted, if_pos (by simpa using h)]

theorem runHeldCounted_converged {k : Nat} (h : file.root.print = file.text)
    (hreturn : FirstReturn recipes (⟨place, file.root⟩, memory) k) (hk : k ≤ settings.maxCycles) :
    runHeldCounted settings recipes file place memory =
      (.ok (changeBehind recipes file (⟨place, file.root⟩, memory) k), k + 1) := by
  have hpasses := passesCounted_converged hreturn hk 0 []
  rw [List.eraseDups_nil, List.nil_append, Nat.zero_add] at hpasses
  rw [runHeldCounted, if_neg (by simpa using h), hpasses]
  simp only [conclude, changeBehind, ne_eq, decide_not]
  rfl

theorem runHeldCounted_diverged (h : file.root.print = file.text)
    (hchanges : ∀ j ≤ settings.maxCycles,
      ¬ ReturnsBehind recipes (⟨place, file.root⟩, memory) j) :
    ∃ r, FirstChanger recipes (⟨place, file.root⟩, memory) settings.maxCycles r ∧
      runHeldCounted settings recipes file place memory =
        (.error (.nonConvergence file.path r.name settings.maxCycles), settings.maxCycles + 1) := by
  obtain ⟨r, hr, hpasses⟩ := passesCounted_diverged hchanges 0 []
  refine ⟨r, hr, ?_⟩
  rw [runHeldCounted, if_neg (by simpa using h), hpasses]
  rfl

theorem runHeldCounted_cases (settings : Settings) (recipes : List (Rewrite μ)) (file : SourceFile)
    (place : Nat) (memory : μ) :
    file.root.print ≠ file.text ∧ runHeldCounted settings recipes file place memory =
        (.error (.printConsistency file.path), 0) ∨
    file.root.print = file.text ∧ (∃ k ≤ settings.maxCycles,
      FirstReturn recipes (⟨place, file.root⟩, memory) k ∧
      runHeldCounted settings recipes file place memory =
        (.ok (changeBehind recipes file (⟨place, file.root⟩, memory) k), k + 1)) ∨
    file.root.print = file.text ∧
      (∀ k ≤ settings.maxCycles, ¬ ReturnsBehind recipes (⟨place, file.root⟩, memory) k) ∧
      ∃ r, FirstChanger recipes (⟨place, file.root⟩, memory) settings.maxCycles r ∧
        runHeldCounted settings recipes file place memory =
          (.error (.nonConvergence file.path r.name settings.maxCycles), settings.maxCycles + 1) := by
  by_cases hprint : file.root.print = file.text
  · rcases @firstReturn_or_changes _ recipes (⟨place, file.root⟩, memory) settings.maxCycles with
      ⟨k, hk, hreturn⟩ | hchanges
    · exact .inr (.inl ⟨hprint, k, hk, hreturn, runHeldCounted_converged hprint hreturn hk⟩)
    · exact .inr (.inr ⟨hprint, hchanges, runHeldCounted_diverged hprint hchanges⟩)
  · exact .inl ⟨hprint, runHeldCounted_inconsistent hprint⟩

theorem runHeld_eq_ok (change : Change) :
    runHeld settings recipes file place memory = .ok change ↔
      file.root.print = file.text ∧ ∃ k, FirstReturn recipes (⟨place, file.root⟩, memory) k ∧
        k + 1 ≤ settings.maxCycles + 1 ∧
          change = changeBehind recipes file (⟨place, file.root⟩, memory) k := by
  rw [← runHeldCounted_fst]
  obtain ⟨hprint, hrun⟩ | ⟨hprint, k, hk, hreturn, hrun⟩ | ⟨hprint, hchanges, r, hr, hrun⟩ :=
    runHeldCounted_cases settings recipes file place memory
  · rw [hrun]
    exact iff_of_false (by simp) fun h => hprint h.1
  · rw [hrun]
    constructor
    · rintro ⟨⟩
      exact ⟨hprint, k, hreturn, by omega, rfl⟩
    · rintro ⟨_, j, hj, _, rfl⟩
      rw [hj.unique hreturn]
  · rw [hrun]
    refine iff_of_false (by simp) ?_
    rintro ⟨_, k, hreturn, hk, _⟩
    exact hchanges k (by omega) hreturn.1

theorem runHeld_eq_error (e : RunError) :
    runHeld settings recipes file place memory = .error e ↔
      file.root.print ≠ file.text ∧ e = .printConsistency file.path ∨
      file.root.print = file.text ∧
        (∀ k ≤ settings.maxCycles, ¬ ReturnsBehind recipes (⟨place, file.root⟩, memory) k) ∧
        ∃ r, FirstChanger recipes (⟨place, file.root⟩, memory) settings.maxCycles r ∧
          e = .nonConvergence file.path r.name settings.maxCycles := by
  rw [← runHeldCounted_fst]
  obtain ⟨hprint, hrun⟩ | ⟨hprint, k, hk, hreturn, hrun⟩ | ⟨hprint, hchanges, r, hr, hrun⟩ :=
    runHeldCounted_cases settings recipes file place memory
  · rw [hrun]
    constructor
    · rintro ⟨⟩
      exact .inl ⟨hprint, rfl⟩
    · rintro (⟨_, rfl⟩ | ⟨h, _⟩)
      · rfl
      · exact absurd h hprint
  · rw [hrun]
    refine iff_of_false (by simp) ?_
    rintro (⟨hne, _⟩ | ⟨_, hchanges, _⟩)
    · exact hne hprint
    · exact hchanges k hk hreturn.1
  · rw [hrun]
    constructor
    · rintro ⟨⟩
      exact .inr ⟨hprint, hchanges, r, hr, rfl⟩
    · rintro (⟨hne, _⟩ | ⟨_, _, r', hr', rfl⟩)
      · exact absurd hprint hne
      · rw [Option.some.inj (hr.head.symm.trans hr'.head)]

theorem runHeldCounted_made (settings : Settings) (recipes : List (Rewrite μ)) (file : SourceFile)
    (place : Nat) (memory : μ) :
    ((runHeldCounted settings recipes file place memory).2 = 0 ↔ file.root.print ≠ file.text) ∧
    (runHeldCounted settings recipes file place memory).2 ≤ settings.maxCycles + 1 := by
  obtain ⟨hprint, hrun⟩ | ⟨hprint, k, hk, hreturn, hrun⟩ | ⟨hprint, hchanges, r, hr, hrun⟩ :=
    runHeldCounted_cases settings recipes file place memory
  · rw [hrun]
    exact ⟨by simp [hprint], Nat.zero_le _⟩
  · rw [hrun]
    exact ⟨by simp [hprint], Nat.succ_le_succ hk⟩
  · rw [hrun]
    exact ⟨by simp [hprint], Nat.le_refl _⟩

end

/-- The answer for a file, whatever the recipes do. A tree that does not print its text is left
alone. Otherwise the first pass that leaves the very tree it begins with gives the change, if at most
as many others as the settings allow stand before it; and if there is none, the first recipe that
replaces the tree in the last pass is at fault. Counting the passes changes no answer, and there is at
most one more of them than the settings allow. A pass in which no recipe replaces the tree leaves the
very tree, and another one does so only if in it a recipe hands back that tree for another one. -/
theorem runHeld_answers (settings : Settings) (recipes : List (Rewrite μ)) (file : SourceFile)
    (place : Nat) (memory : μ) :
    let start : Held × μ := (⟨place, file.root⟩, memory)
    (∀ change, runHeld settings recipes file place memory = .ok change ↔
      file.root.print = file.text ∧ ∃ k, FirstReturn recipes start k ∧
        k + 1 ≤ settings.maxCycles + 1 ∧ change = changeBehind recipes file start k) ∧
    (∀ e, runHeld settings recipes file place memory = .error e ↔
      file.root.print ≠ file.text ∧ e = .printConsistency file.path ∨
      file.root.print = file.text ∧
        (∀ k ≤ settings.maxCycles, ¬ ReturnsBehind recipes start k) ∧
        ∃ r, FirstChanger recipes start settings.maxCycles r ∧
          e = .nonConvergence file.path r.name settings.maxCycles) ∧
    (runHeldCounted settings recipes file place memory).1 =
      runHeld settings recipes file place memory ∧
    ((runHeldCounted settings recipes file place memory).2 = 0 ↔ file.root.print ≠ file.text) ∧
    (runHeldCounted settings recipes file place memory).2 ≤ settings.maxCycles + 1 ∧
    (∀ k, changersBehind recipes start k = [] → ReturnsBehind recipes start k) ∧
    ∀ k, ReturnsBehind recipes start k →
      changersBehind recipes start k = [] ∨ HandsBackBehind recipes start k := by
  intro start
  have hmade := runHeldCounted_made settings recipes file place memory
  exact ⟨runHeld_eq_ok, runHeld_eq_error, runHeldCounted_fst .., hmade.1, hmade.2,
    fun _ => returnsBehind_of_changers, fun _ => changers_or_handsBack⟩

/-- A recipe puts a node around the root and keeps the tree that it was given, and the next one hands
that back. Both replace the tree in the first pass, and yet that one settles the file. -/
theorem runHeld_settles_undone :
    let root : Node :=
      { kind := .yaml .scalar, lead := "", children := [.token ⟨.text, "", "a"⟩] }
    let wrap : Rewrite (List Held) :=
      { name := "Wrap"
        pass? := some fun held kept =>
          (⟨held.place + 1, { kind := .yaml .document, lead := "", children := [held.root] }⟩,
            held :: kept) }
    let unwrap : Rewrite (List Held) :=
      { name := "Unwrap", pass? := some fun held kept => (kept.headD held, kept.tail) }
    ¬ ((∃ change, runHeld {} [wrap, unwrap] ⟨"a.yml", "a", root⟩ 0 [] = .ok change ∧
        change.cycles = 1) ↔
      changersBehind [wrap, unwrap] (⟨0, root⟩, []) 0 = []) := by
  intro root wrap unwrap hsame
  have hchangers : changersBehind [wrap, unwrap] (⟨0, root⟩, []) 0 = ["Wrap", "Unwrap"] := rfl
  have hsettled : runHeld {} [wrap, unwrap] ⟨"a.yml", "a", root⟩ 0 [] =
      .ok ⟨"a.yml", "a", "a", false, [], 1⟩ := by
    decide
  rw [hsame.1 ⟨_, hsettled, rfl⟩] at hchangers
  cases hchangers

end

end Engine

end Codemod
