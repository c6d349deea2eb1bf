import Codemod.Proofs.Yaml.Chains
import Codemod.Recipes.Deletion
import Mathlib.Data.List.Infix
import Mathlib.Data.List.Lattice

/-!
The entries that a deletion selects, and what is left of a document without them and what is below
them.
-/

namespace Codemod.Yaml

open Codemod.Tree

/-! ### Chains below a node -/

theorem isPrefix_of_leaf {around : List Node} {n : Node} {leaf : List Node × String}
    (h : leaf ∈ leafChains around n) : around <+: leaf.1 := by
  induction n using Node.induction_on generalizing around with
  | step n ih =>
      have hlist : ∀ around, leaf ∈ leafChainsList around n.children → around <+: leaf.1 := by
        intro around h
        obtain ⟨c, hc, hleaf⟩ := mem_leafChainsList.1 h
        exact ih c hc hleaf
      obtain ⟨kind, lead, children, markers, type?⟩ := n
      rw [leafChains] at h
      split_ifs at h
      · exact (List.prefix_append _ _).trans (hlist _ h)
      · split at h
        · obtain rfl := List.mem_singleton.1 h
          exact List.prefix_refl _
        · exact hlist _ h

theorem prefix_of_leaf {around : List Node} {n : Node} {leaf : List Node × String}
    (h : leaf ∈ leafChains around n) {chain : List Node} (hchain : chain <+: leaf.1) :
    chain <+: around ∨ chain ∈ entryChains around n := by
  induction n using Node.induction_on generalizing around with
  | step n ih =>
      have hlist : ∀ around, leaf ∈ leafChainsList around n.children →
          chain <+: around ∨ chain ∈ entryChainsList around n.children := by
        intro around h
        obtain ⟨c, hc, hleaf⟩ := mem_leafChainsList.1 h
        exact (ih c hc hleaf).imp_right fun h => mem_entryChainsList.2 ⟨c, hc, h⟩
      obtain ⟨kind, lead, children, markers, type?⟩ := n
      rw [leafChains] at h
      rw [entryChains]
      split_ifs at h ⊢
      · rcases hlist _ h with h | h
        · rcases List.prefix_concat_iff.1 h with rfl | h
          · exact .inr List.mem_cons_self
          · exact .inl h
        · exact .inr (List.mem_cons_of_mem _ h)
      · split at h
        · obtain rfl := List.mem_singleton.1 h
          exact .inl hchain
        · exact hlist _ h

section
variable {n : Node} (h : Shaped n)
include h

theorem leavesUnder_subset {around chain : List Node} (hchain : chain ∈ entryChains around n) :
    leavesUnder chain ⊆ leafChains around n := by
  induction h generalizing around with
  | scalar hkind hes =>
      rw [entryChains_scalar around hkind hes] at hchain
      cases hchain
  | entry hkind hes _ _ _ ih =>
      rw [entryChains_entry hkind hes] at hchain
      rw [leafChains_entry hkind hes]
      rcases List.mem_cons.1 hchain with rfl | hchain
      · rw [leavesUnder_entry hes]
        exact List.Subset.refl _
      · exact ih hchain
  | mapping hkind _ _ _ ih =>
      rw [entryChains_inner (by simp [hkind])] at hchain
      rw [leafChains_inner (by simp [hkind]) (by simp [hkind])]
      obtain ⟨e, he, hchain⟩ := mem_entryChainsList.1 hchain
      exact fun leaf hleaf => mem_leafChainsList.2 ⟨e, he, ih e he hchain hleaf⟩

/-- There is a scalar below each node. -/
theorem leafChains_ne_nil (around : List Node) : leafChains around n ≠ [] := by
  induction h generalizing around with
  | scalar hkind hes => simp [leafChains_scalar around hkind hes]
  | entry hkind hes _ _ _ ih =>
      rw [leafChains_entry hkind hes]
      exact ih _
  | mapping hkind hne honly _ ih =>
      rw [leafChains_inner (by simp [hkind]) (by simp [hkind])]
      obtain ⟨e, es, hes⟩ := List.exists_cons_of_ne_nil hne
      obtain ⟨c, rfl, _⟩ := honly e (by simp [hes])
      rw [hes, leafChainsList, leafChainsElement]
      exact fun hnil => ih c (by simp [hes]) around (List.append_eq_nil_iff.1 hnil).1

theorem leavesUnder_ne_nil {around chain : List Node} (hchain : chain ∈ entryChains around n) :
    leavesUnder chain ≠ [] := by
  induction h generalizing around with
  | scalar hkind hes =>
      rw [entryChains_scalar around hkind hes] at hchain
      cases hchain
  | entry hkind hes _ _ h ih =>
      rw [entryChains_entry hkind hes] at hchain
      rcases List.mem_cons.1 hchain with rfl | hchain
      · rw [leavesUnder_entry hes]
        exact leafChains_ne_nil h _
      · exact ih hchain
  | mapping hkind _ _ _ ih =>
      rw [entryChains_inner (by simp [hkind])] at hchain
      obtain ⟨e, he, hchain⟩ := mem_entryChainsList.1 hchain
      exact ih e he hchain

theorem keyPath_longer {around chain : List Node} (hchain : chain ∈ entryChains around n) :
    ∃ rest, rest ≠ [] ∧ keyPath chain = keyPath around ++ rest := by
  induction h generalizing around with
  | scalar hkind hes =>
      rw [entryChains_scalar around hkind hes] at hchain
      cases hchain
  | @entry n value key colon hkind hes hkey _ _ ih =>
      have hsegments : entrySegments n ≠ [] := by
        rw [entrySegments_entry hkind hes hkey]
        exact keySegments_ne_nil _
      rw [entryChains_entry hkind hes] at hchain
      rcases List.mem_cons.1 hchain with rfl | hchain
      · exact ⟨_, hsegments, keyPath_snoc around n⟩
      · obtain ⟨rest, _, hrest⟩ := ih hchain
        refine ⟨entrySegments n ++ rest, by simp [hsegments], ?_⟩
        rw [hrest, keyPath_snoc, List.append_assoc]
  | mapping hkind _ _ _ ih =>
      rw [entryChains_inner (by simp [hkind])] at hchain
      obtain ⟨e, he, hchain⟩ := mem_entryChainsList.1 hchain
      exact ih e he hchain

end

end Codemod.Yaml

namespace Codemod.Recipes.Deletion

open Codemod.Tree Codemod.Yaml

namespace Target

variable (target : Target)

/-- The last entry of a chain is selected: the chain spells the path of the target, and the value of
the entry is one that the target asks for. -/
def selects (chain : List Node) : Bool :=
  keyPath chain == target.path.parts &&
    match target.expected? with
    | none => true
    | some expected =>
        ((chain.getLast?.bind entryValue?).bind scalarText?).any (valueMatches expected)

/-- A chain leads to a selected entry or below one. -/
def covers (chain : List Node) : Bool :=
  chain.inits.any target.selects

/-- Those of some scalars that no selected entry covers. -/
def left (leaves : List (List Node × String)) : List (List Node × String) :=
  leaves.filter fun leaf => !target.covers leaf.1

/-- Those of some entries under which such a scalar is left. -/
def holding (chains : List (List Node)) : List (List Node) :=
  chains.filter fun chain => !(target.left (leavesUnder chain)).isEmpty

variable {target}

theorem covers_iff {chain : List Node} :
    target.covers chain = true ↔ ∃ front, front <+: chain ∧ target.selects front = true := by
  simp [covers]

theorem covers_mono {chain longer : List Node} (h : chain <+: longer)
    (hcovers : target.covers chain = true) : target.covers longer = true := by
  obtain ⟨front, hfront, hselects⟩ := covers_iff.1 hcovers
  exact covers_iff.2 ⟨front, hfront.trans h, hselects⟩

theorem covers_snoc {around : List Node} {e : Node} (h : target.covers around = false) :
    target.covers (around ++ [e]) = target.selects (around ++ [e]) := by
  rw [Bool.eq_iff_iff, covers_iff]
  constructor
  · rintro ⟨front, hfront, hselects⟩
    rcases List.prefix_concat_iff.1 hfront with rfl | hfront
    · exact hselects
    · rw [covers_iff.2 ⟨front, hfront, hselects⟩] at h
      cases h
  · exact fun hselects => ⟨_, List.prefix_refl _, hselects⟩

theorem keyPath_of_selects {chain : List Node} (h : target.selects chain = true) :
    keyPath chain = target.path.parts := by
  rw [selects, Bool.and_eq_true] at h
  simpa using h.1

/-- What leads on towards the end of the target's path leads below no selected entry. -/
theorem covers_of_continues {around : List Node}
    (h : target.path.continues (keyPath around) = true) : target.covers around = false := by
  rw [← Bool.not_eq_true, covers_iff]
  rintro ⟨front, ⟨rest, rfl⟩, hselects⟩
  rw [keyPath_append, keyPath_of_selects hselects, KeyPath.continues, Bool.and_eq_true,
    decide_eq_true_eq, List.length_append] at h
  omega

theorem continues_nil : target.path.continues [] = true := by
  have hlength := List.length_pos_iff.2 target.path.parts_ne_nil
  simp [KeyPath.continues, hlength]

/-- Entries are selected only below what leads on towards the end of the target's path. -/
theorem selects_eq_false {around : List Node} {n : Node} (h : Shaped n)
    (hdead : target.path.continues (keyPath around) = false) :
    ∀ chain ∈ entryChains around n, target.selects chain = false := by
  intro chain hchain
  obtain ⟨rest, hrest, hpath⟩ := keyPath_longer h hchain
  by_contra hselects
  rw [keyPath_of_selects (by simpa using hselects)] at hpath
  have hlength := List.length_pos_iff.2 hrest
  have hprefix := List.isPrefixOf_iff_prefix.2 (List.prefix_append (keyPath around) rest)
  simp [KeyPath.continues, hpath, hlength, hprefix] at hdead

/-- Where no entry is selected, all scalars are left. -/
theorem left_eq_self {around : List Node} {n : Node} (hclear : target.covers around = false)
    (hnone : ∀ chain ∈ entryChains around n, target.selects chain = false) :
    target.left (leafChains around n) = leafChains around n := by
  refine List.filter_eq_self.2 fun leaf hleaf => ?_
  rw [Bool.not_eq_true', ← Bool.not_eq_true, covers_iff]
  rintro ⟨front, hfront, hselects⟩
  rcases prefix_of_leaf hleaf hfront with h | h
  · rw [covers_iff.2 ⟨front, h, hselects⟩] at hclear
    cases hclear
  · rw [hnone front h] at hselects
    cases hselects

/-- Below a selected entry no scalar is left. -/
theorem left_eq_nil {around : List Node} {n : Node} (h : target.covers around = true) :
    target.left (leafChains around n) = [] := by
  refine List.filter_eq_nil_iff.2 fun leaf hleaf => ?_
  simp [covers_mono (isPrefix_of_leaf hleaf) h]

theorem left_append (leaves leaves' : List (List Node × String)) :
    target.left (leaves ++ leaves') = target.left leaves ++ target.left leaves' :=
  List.filter_append ..

theorem holding_append (chains chains' : List (List Node)) :
    target.holding (chains ++ chains') = target.holding chains ++ target.holding chains' :=
  List.filter_append ..

theorem holding_singleton (chain : List Node) :
    target.holding [chain] = if target.left (leavesUnder chain) = [] then [] else [chain] := by
  rw [holding, List.filter_singleton]
  cases target.left (leavesUnder chain) <;> rfl

section
variable {around : List Node} {n : Node} (h : Shaped n)
include h

/-- Where no entry is selected, all entries hold a scalar that is left. -/
theorem holding_eq_self (hclear : target.covers around = false)
    (hnone : ∀ chain ∈ entryChains around n, target.selects chain = false) :
    target.holding (entryChains around n) = entryChains around n := by
  refine List.filter_eq_self.2 fun chain hchain => ?_
  have hall : target.left (leavesUnder chain) = leavesUnder chain := by
    refine List.filter_eq_self.2 fun leaf hleaf => ?_
    have hleft := left_eq_self hclear hnone
    exact List.filter_eq_self.1 hleft leaf (leavesUnder_subset h hchain hleaf)
  simp [hall, leavesUnder_ne_nil h hchain]

/-- Where no scalar is left, no entry holds one. -/
theorem holding_eq_nil (hnil : target.left (leafChains around n) = []) :
    target.holding (entryChains around n) = [] := by
  refine List.filter_eq_nil_iff.2 fun chain hchain => ?_
  have hnone : target.left (leavesUnder chain) = [] := List.filter_eq_nil_iff.2 fun leaf hleaf =>
    List.filter_eq_nil_iff.1 hnil leaf (leavesUnder_subset h hchain hleaf)
  simp [hnone]

end

end Target

end Codemod.Recipes.Deletion
