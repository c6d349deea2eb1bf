import Codemod.Proofs.Engine.Passes

/-!
Recipes whose replacements are new trees. A tree that such a recipe replaces is never the very one
again, so a pass leaves the tree it begins with exactly if no recipe replaces it, and the places of
trees in memory need not be looked at.
-/

namespace Codemod

open Codemod.Tree

namespace Recipe

/-! ### One pass -/

/-- The tree that a recipe's own pass makes of another, if it replaces anything. -/
def own (recipe : Recipe) (root : Node) : Option Node :=
  recipe.pass?.bind fun pass => pass root

/-- Recipes one after another, each with its own pass only: the tree that they leave, and the names
of those that replaced something. -/
def inOrder : List Recipe → Node → Applied
  | [], root => ⟨root, []⟩
  | r :: rs, root =>
      match r.own root with
      | some next => ⟨(inOrder rs next).root, r.name :: (inOrder rs next).changedBy⟩
      | none => inOrder rs root

theorem inOrder_append (rs rs' : List Recipe) (root : Node) :
    inOrder (rs ++ rs') root =
      ⟨(inOrder rs' (inOrder rs root).root).root,
        (inOrder rs root).changedBy ++ (inOrder rs' (inOrder rs root).root).changedBy⟩ := by
  induction rs generalizing root with
  | nil => rfl
  | cons r rs ih =>
      rw [List.cons_append, inOrder, inOrder]
      cases r.own root with
      | none => exact ih root
      | some next => simp only [ih next, List.cons_append]

theorem inOrder_cons (r : Recipe) (rs : List Recipe) (root : Node) :
    inOrder (r :: rs) root =
      ⟨(inOrder rs (inOrder [r] root).root).root,
        (inOrder [r] root).changedBy ++ (inOrder rs (inOrder [r] root).root).changedBy⟩ :=
  inOrder_append [r] rs root

theorem root_inOrder_cons (r : Recipe) (rs : List Recipe) (root : Node) :
    (inOrder (r :: rs) root).root = (inOrder rs ((r.own root).getD root)).root := by
  rw [inOrder]
  cases r.own root <;> rfl

theorem applyOwn_eq (r : Recipe) (state : Applied) :
    r.applyOwn state =
      ⟨(inOrder [r] state.root).root, state.changedBy ++ (inOrder [r] state.root).changedBy⟩ := by
  rw [applyOwn, inOrder, own]
  cases r.pass?.bind fun pass => pass state.root with
  | none => simp [inOrder]
  | some next => rfl

theorem preorder_eq (recipe : Recipe) : recipe.preorder = recipe :: preorderAll recipe.children := by
  cases recipe
  rw [preorder]

mutual

theorem apply_eq_inOrder : (r : Recipe) → (state : Applied) →
    r.apply state =
      ⟨(inOrder r.preorder state.root).root,
        state.changedBy ++ (inOrder r.preorder state.root).changedBy⟩
  | r@⟨_, _, _, _, _, children⟩, state => by
      rw [apply, applyAll_eq_inOrder children, applyOwn_eq, preorder,
        inOrder_cons _ (preorderAll children)]
      simp only [List.append_assoc]

theorem applyAll_eq_inOrder : (rs : List Recipe) → (state : Applied) →
    applyAll rs state =
      ⟨(inOrder (preorderAll rs) state.root).root,
        state.changedBy ++ (inOrder (preorderAll rs) state.root).changedBy⟩
  | [], state => by simp [applyAll, preorderAll, inOrder]
  | r :: rs, state => by
      rw [applyAll, applyAll_eq_inOrder rs, apply_eq_inOrder r, preorderAll, inOrder_append]
      simp only [List.append_assoc]

end

theorem applyAll_single (recipe : Recipe) (state : Applied) :
    applyAll [recipe] state = recipe.apply state := by
  rw [applyAll, applyAll]

/-- None of the recipes replaces the tree. -/
def Quiet (rs : List Recipe) (root : Node) : Prop :=
  ∀ r ∈ rs, r.own root = none

/-! ### Places -/

/-- The state of recipes over trees in memory agrees with what they make of the tree that was held at
the place: it is still that very tree exactly if no recipe replaced it. -/
structure Mirrors (place : Nat) (applied : Applied) (state : Rewrite.State Nat) : Prop where
  root : state.held.root = applied.root
  changedBy : state.changedBy = applied.changedBy
  behind : place ≤ state.held.place
  free : state.held.place < state.memory
  same : state.held.place = place ↔ applied.changedBy = []

section
variable {place : Nat} {applied : Applied} {state : Rewrite.State Nat}

theorem Mirrors.start {free : Nat} (hfree : place < free) (root : Node) :
    Mirrors place ⟨root, []⟩ ⟨⟨place, root⟩, [], free⟩ :=
  ⟨rfl, rfl, Nat.le_refl _, hfree, by simp⟩

theorem Mirrors.applyOwn (h : Mirrors place applied state) (r : Recipe) :
    Mirrors place (r.applyOwn applied) (r.rewrite.applyOwn state) := by
  obtain ⟨name, description, options, failures, pass?, children⟩ := r
  obtain ⟨hroot, hchangedBy, hbehind, hfree, hsame⟩ := h
  rw [Recipe.applyOwn, Recipe.rewrite, Rewrite.applyOwn]
  cases pass? with
  | none => exact ⟨hroot, hchangedBy, hbehind, hfree, hsame⟩
  | some pass =>
      simp only [Option.map_some, Option.bind_some, Pass.hold, hroot]
      cases pass applied.root with
      | none =>
          simp only [if_true]
          exact ⟨hroot, hchangedBy, hbehind, hfree, hsame⟩
      | some next =>
          have hbelow : place < state.memory := Nat.lt_of_le_of_lt hbehind hfree
          simp only [if_neg (Nat.ne_of_gt hfree)]
          exact ⟨rfl, by rw [hchangedBy], Nat.le_of_lt hbelow, Nat.lt_succ_self _,
            iff_of_false (Nat.ne_of_gt hbelow) (by simp)⟩

mutual

theorem Mirrors.apply : (r : Recipe) → {applied : Applied} → {state : Rewrite.State Nat} →
    Mirrors place applied state → Mirrors place (r.apply applied) (r.rewrite.apply state)
  | ⟨name, description, options, failures, pass?, children⟩, _, _, h => by
      have hown := h.applyOwn ⟨name, description, options, failures, pass?, children⟩
      simp only [rewrite] at hown ⊢
      rw [Recipe.apply, Rewrite.apply]
      exact Mirrors.applyAll children hown

theorem Mirrors.applyAll : (rs : List Recipe) → {applied : Applied} →
    {state : Rewrite.State Nat} → Mirrors place applied state →
      Mirrors place (Recipe.applyAll rs applied) (Rewrite.applyAll (rewriteAll rs) state)
  | [], _, _, h => by
      rw [Recipe.applyAll, rewriteAll, Rewrite.applyAll]
      exact h
  | r :: rs, _, _, h => by
      rw [Recipe.applyAll, rewriteAll, Rewrite.applyAll]
      exact Mirrors.applyAll rs (Mirrors.apply r h)

end

end

end Recipe

namespace Engine

open Recipe Source

/-! ### All passes -/

/-- Passes over a tree of which so many may still change it, where a pass changes it if a recipe
replaces it. -/
def passesOver (recipes : List Recipe) (done : Nat) (names : List String) :
    Nat → Node → Outcome
  | left, root =>
      let pass := Recipe.applyAll recipes ⟨root, []⟩
      match pass.changedBy, left with
      | [], _ => .converged pass.root names (done + 1)
      | first :: _, 0 => .diverged first
      | first :: rest, left + 1 =>
          passesOver recipes (done + 1) (addNew names (first :: rest)) left pass.root

variable {recipes : List Recipe}

theorem passes_rewriteAll {place free : Nat} (hfree : place < free) (done left : Nat)
    (names : List String) (root : Node) :
    passes (rewriteAll recipes) done names left ⟨place, root⟩ free =
      passesOver recipes done names left root := by
  induction left generalizing place free done names root with
  | zero =>
      obtain ⟨hroot, hchangedBy, -, -, hsame⟩ := Mirrors.applyAll recipes (.start hfree root)
      unfold passes passesOver
      cases hnames : (Recipe.applyAll recipes ⟨root, []⟩).changedBy with
      | nil => simp only [hnames, hsame.2 hnames, hroot, if_true]
      | cons first rest =>
          have hplace := mt hsame.1 (by simp [hnames])
          simp only [hnames, hchangedBy, if_neg hplace]
          rfl
  | succ left ih =>
      obtain ⟨hroot, hchangedBy, -, hnext, hsame⟩ := Mirrors.applyAll recipes (.start hfree root)
      unfold passes passesOver
      cases hnames : (Recipe.applyAll recipes ⟨root, []⟩).changedBy with
      | nil => simp only [hnames, hsame.2 hnames, hroot, if_true]
      | cons first rest =>
          have hplace := mt hsame.1 (by simp [hnames])
          simp only [hnames, hchangedBy, if_neg hplace]
          exact (ih hnext _ _ _).trans (congrArg _ hroot)

/-- Where replacements are new trees, a file is settled by the first pass that replaces nothing. -/
theorem runFile_eq (settings : Settings) (recipes : List Recipe) (file : SourceFile) :
    runFile settings recipes file =
      if file.root.print != file.text then .error (.printConsistency file.path)
      else conclude settings file (passesOver recipes 0 [] settings.maxCycles file.root) := by
  rw [runFile, runHeld, passes_rewriteAll Nat.zero_lt_one]
  split_ifs
  · rfl
  · cases passesOver recipes 0 [] settings.maxCycles file.root <;> rfl

end Engine

end Codemod
