import Codemod.Proofs.Recipes.Selection
import Codemod.Proofs.Tree.Sweep

/-!
What a deletion makes of a document. Each mapping drops the entries under which no scalar is left;
so exactly those scalars are left that no selected entry covers, and the entries around them.
-/

namespace Codemod.Recipes.Deletion

open Codemod.Tree Codemod.Yaml

variable {target : Target} {around : List Node}

/-! ### Pruned content -/

/-- Scalars and entries in place of others: exactly those are left that no selected entry covers,
and the entries that hold them, and none of these is selected. The entries around the new ones are
those around the others or stand for them. -/
structure Prunes (target : Target) (around : List Node) (leaves : List (List Node × String))
    (chains : List (List Node)) (leaves' : List (List String × String))
    (chains' : List Node → List (List Node)) : Prop where
  leaves : leaves' = (target.left leaves).map leafView
  entries : ∀ around', around'.map keyText = around.map keyText →
    (chains' around').map (List.map keyText) = (target.holding chains).map (List.map keyText)
  unselected : ∀ around', around'.map keyText = around.map keyText →
    ∀ chain ∈ chains' around', target.selects chain = false

theorem Prunes.append {leaves₁ leaves₂ : List (List Node × String)}
    {chains₁ chains₂ : List (List Node)} {leaves₁' leaves₂' : List (List String × String)}
    {chains₁' chains₂' : List Node → List (List Node)}
    (h₁ : Prunes target around leaves₁ chains₁ leaves₁' chains₁')
    (h₂ : Prunes target around leaves₂ chains₂ leaves₂' chains₂') :
    Prunes target around (leaves₁ ++ leaves₂) (chains₁ ++ chains₂) (leaves₁' ++ leaves₂')
      fun around' => chains₁' around' ++ chains₂' around' where
  leaves := by rw [h₁.leaves, h₂.leaves, Target.left_append, List.map_append]
  entries := by
    intro around' hkeys
    rw [List.map_append, h₁.entries around' hkeys, h₂.entries around' hkeys,
      Target.holding_append, List.map_append]
  unselected := by
    intro around' hkeys chain hchain
    rcases List.mem_append.1 hchain with h | h
    · exact h₁.unselected around' hkeys chain h
    · exact h₂.unselected around' hkeys chain h

theorem Prunes.drop {n : Node} (h : Shaped n)
    (hnil : target.left (leafChains around n) = []) :
    Prunes target around (leafChains around n) (entryChains around n) [] fun _ => [] where
  leaves := by rw [hnil, List.map_nil]
  entries := fun _ _ => by rw [Target.holding_eq_nil h hnil, List.map_nil]
  unselected := nofun

/-- The content of a node in place of that of another. -/
abbrev PrunesNode (target : Target) (around : List Node) (n n' : Node) : Prop :=
  Prunes target around (leafChains around n) (entryChains around n)
    (leafPaths (keyPath around) n') fun around' => entryChains around' n'

/-- The content of some children in place of that of others. -/
abbrev PrunesList (target : Target) (around : List Node) (es es' : List Element) : Prop :=
  Prunes target around (leafChainsList around es) (entryChainsList around es)
    (leafPathsList (keyPath around) es') fun around' => entryChainsList around' es'

theorem selects_congr {chain chain' : List Node} (hkeys : chain'.map keyText = chain.map keyText)
    (hlast : (chain'.getLast?.bind entryValue?).bind scalarText? =
      (chain.getLast?.bind entryValue?).bind scalarText?) :
    target.selects chain' = target.selects chain := by
  rw [Target.selects, Target.selects, keyPath_congr hkeys, hlast]

theorem prunesNode_self {n : Node} (h : Shaped n) (hclear : target.covers around = false)
    (hnone : ∀ chain ∈ entryChains around n, target.selects chain = false) :
    PrunesNode target around n n where
  leaves := by rw [Target.left_eq_self hclear hnone, leafPaths_eq]
  entries := by
    intro around' hkeys
    rw [Target.holding_eq_self h hclear hnone, ← List.append_nil around',
      ← List.append_nil around, entryChains_eq_map, entryChains_eq_map]
    simp [hkeys]
  unselected := by
    intro around' hkeys chain hchain
    rw [← List.append_nil around', entryChains_eq_map] at hchain
    obtain ⟨rest, hrest, rfl⟩ := List.mem_map.1 hchain
    have hsame : target.selects (around' ++ rest) = target.selects (around ++ rest) := by
      refine selects_congr (by simp [hkeys]) ?_
      simp [List.getLast?_append_of_ne_nil _ (entryChains_ne_nil hrest)]
    refine hsame.trans (hnone _ ?_)
    rw [← List.append_nil around, entryChains_eq_map, List.append_nil]
    exact List.mem_map_of_mem hrest

/-! ### Pruned values and entries -/

/-- A value stands for another one: it has its pruned content, and is an empty mapping if nothing is
left of it. -/
structure Pruned (target : Target) (around : List Node) (n n' : Node) (changed : Bool) : Prop where
  content : PrunesNode target around n n'
  kind : n'.kind = n.kind
  shaped : target.left (leafChains around n) ≠ [] → Shaped n'
  emptied : target.left (leafChains around n) = [] → n'.kind = .yaml .mapping ∧ n'.children = []
  changed_iff : changed = true ↔ ∃ chain ∈ entryChains around n, target.selects chain = true

theorem Pruned.self {n : Node} (h : Shaped n) (hclear : target.covers around = false)
    (hnone : ∀ chain ∈ entryChains around n, target.selects chain = false) :
    Pruned target around n n false where
  content := prunesNode_self h hclear hnone
  kind := rfl
  shaped := fun _ => h
  emptied := by
    intro hnil
    rw [Target.left_eq_self hclear hnone] at hnil
    exact absurd hnil (leafChains_ne_nil h around)
  changed_iff := by
    refine iff_of_false (by simp) ?_
    rintro ⟨chain, hchain, hselects⟩
    rw [hnone chain hchain] at hselects
    cases hselects

/-- What a visit makes of an entry: its value is pruned, unless the entry is selected itself, and
stays as it is where the path of the target does not lead on into it. -/
inductive Visited (target : Target) (around : List Node) : Node → Node → Bool → Prop where
  | intro {e : Node} {changed : Bool} (value value' : Node) (key colon : Token)
      (hkind : e.kind = .yaml .entry)
      (hes : e.children = [.token key, .token colon, .node value]) (hkey : key.kind = .text)
      (hisValue : IsValue value) (hvalue : Shaped value)
      (hpruned : target.covers (around ++ [e]) = false →
        Pruned target (around ++ [e]) value value' changed)
      (hdead : target.path.continues (keyPath (around ++ [e])) = false →
        value' = value ∧ changed = false) :
      Visited target around e
        { e with children := [.token key, .token colon, .node value'] } changed

theorem childNodes_ne_nil {n m : Node} (h : Shaped n) (hm : m ∈ n.preorder)
    (hkind : m.kind = .yaml .mapping) : m.childNodes ≠ [] := by
  obtain ⟨hne, honly⟩ := mapping_of_shaped h hm hkind
  obtain ⟨e, es, hes⟩ := List.exists_cons_of_ne_nil hne
  obtain ⟨c, rfl, _⟩ := honly e (by simp [hes])
  simp [Node.childNodes, hes, Element.node?]

theorem selects_entry {e value : Node} (hvalue : entryValue? e = some value) :
    target.selects (around ++ [e]) =
      (keyPath (around ++ [e]) == target.path.parts && target.acceptsValue value) := by
  rw [Target.selects, Target.acceptsValue, List.getLast?_concat, Option.bind_some, hvalue]
  rfl

theorem dead_of_selects {chain : List Node} (h : target.selects chain = true) :
    target.path.continues (keyPath chain) = false := by
  rw [Target.keyPath_of_selects h]
  simp [KeyPath.continues]

namespace Visited

variable {e e' : Node} {changed : Bool} (h : Visited target around e e' changed)
include h

theorem shaped : Shaped e := by
  obtain ⟨_, _, _, _, hkind, hes, hkey, hisValue, hvalue, _, _⟩ := h
  exact .entry hkind hes hkey hisValue hvalue

theorem isEntry : e'.kind = .yaml .entry := by
  obtain ⟨_, _, _, _, hkind, _⟩ := h
  exact hkind

section
variable (hlive : target.path.continues (keyPath around) = true)
include hlive

theorem deletes_iff :
    target.deletes (keyPath around) e' = true ↔ target.left (leafChains around e) = [] := by
  obtain ⟨value, value', key, colon, hkind, hes, hkey, hisValue, hvalue, hpruned, hdead⟩ := h
  have hcovers := Target.covers_snoc (e := e) (Target.covers_of_continues hlive)
  have hselects : target.selects (around ++ [e]) =
      (keyPath (around ++ [e]) == target.path.parts && target.acceptsValue value) :=
    selects_entry (entryValue_entry hkind hes)
  have hpath : keyPath around ++ entrySegments { e with
      children := [.token key, .token colon, .node value'] } = keyPath (around ++ [e]) := by
    rw [keyPath_snoc, entrySegments_entry hkind hes hkey]
    congr 1
    exact @entrySegments_entry _ value' _ colon hkind rfl hkey
  have hfound : entryValue? { e with
      children := [.token key, .token colon, .node value'] } = some value' :=
    entryValue_entry hkind rfl
  rw [leafChains_entry hkind hes, Target.deletes, hfound]
  simp only [hpath]
  by_cases hselected : target.selects (around ++ [e]) = true
  · -- A selected entry keeps its value and is addressed itself.
    obtain ⟨rfl, _⟩ := hdead (dead_of_selects hselected)
    rw [if_neg fun hempty => childNodes_ne_nil hvalue (mem_preorder_self _) hempty.1 hempty.2]
    refine iff_of_true ?_ (Target.left_eq_nil (hcovers.trans hselected))
    rw [hselects, Bool.and_eq_true, beq_iff_eq] at hselected
    simp [KeyPath.spells, hselected.1, hselected.2]
  · have hpruned := hpruned (hcovers.trans (by simpa using hselected))
    by_cases hnil : target.left (leafChains (around ++ [e]) value) = []
    · -- A mapping that has lost all its entries is no shaped value, so the visit went into it.
      obtain ⟨hmapping, hchildren⟩ := hpruned.emptied hnil
      rw [if_pos ⟨hmapping, by simp [Node.childNodes, hchildren]⟩]
      refine iff_of_true ?_ hnil
      by_contra hend
      obtain ⟨rfl, _⟩ := hdead (by simpa using hend)
      exact (mapping_of_shaped hvalue (mem_preorder_self _) hmapping).1 hchildren
    · rw [if_neg fun hempty => childNodes_ne_nil (hpruned.shaped hnil) (mem_preorder_self _) hempty.1
        hempty.2]
      refine iff_of_false ?_ hnil
      intro hdeletes
      rw [Bool.and_eq_true, KeyPath.spells, beq_iff_eq] at hdeletes
      obtain ⟨rfl, _⟩ := hdead (by rw [← hdeletes.1]; simp [KeyPath.continues])
      rw [hselects, ← hdeletes.1] at hselected
      simp [hdeletes.2] at hselected

theorem exists_selected_of_changed (hchanged : changed = true) :
    ∃ chain ∈ entryChains around e, target.selects chain = true := by
  obtain ⟨value, value', key, colon, hkind, hes, hkey, hisValue, hvalue, hpruned, hdead⟩ := h
  have hcovers := Target.covers_snoc (e := e) (Target.covers_of_continues hlive)
  rw [entryChains_entry hkind hes]
  by_cases hselected : target.selects (around ++ [e]) = true
  · exact ⟨_, List.mem_cons_self, hselected⟩
  · have hpruned := hpruned (hcovers.trans (by simpa using hselected))
    obtain ⟨chain, hchain, hselects⟩ := hpruned.changed_iff.1 hchanged
    exact ⟨chain, List.mem_cons_of_mem _ hchain, hselects⟩

theorem changed_of_selected {chain : List Node} (hchain : chain ∈ entryChains around e)
    (hselects : target.selects chain = true) :
    changed = true ∨ target.left (leafChains around e) = [] := by
  obtain ⟨value, value', key, colon, hkind, hes, hkey, hisValue, hvalue, hpruned, hdead⟩ := h
  have hcovers := Target.covers_snoc (e := e) (Target.covers_of_continues hlive)
  rw [leafChains_entry hkind hes]
  by_cases hselected : target.selects (around ++ [e]) = true
  · exact .inr (Target.left_eq_nil (hcovers.trans hselected))
  · have hpruned := hpruned (hcovers.trans (by simpa using hselected))
    rw [entryChains_entry hkind hes] at hchain
    rcases List.mem_cons.1 hchain with rfl | hchain
    · exact absurd hselects hselected
    · exact .inl (hpruned.changed_iff.2 ⟨chain, hchain, hselects⟩)

theorem exists_selected_of_left (hnil : target.left (leafChains around e) = []) :
    ∃ chain ∈ entryChains around e, target.selects chain = true := by
  by_contra hnone
  have hself : target.left (leafChains around e) = leafChains around e :=
    Target.left_eq_self (Target.covers_of_continues hlive) fun chain hchain => by
      by_contra hselects
      exact hnone ⟨chain, hchain, by simpa using hselects⟩
  rw [hself] at hnil
  exact leafChains_ne_nil h.shaped around hnil

end

theorem stays (hleft : target.left (leafChains around e) ≠ []) (lead : String) :
    PrunesNode target around e { e' with lead } ∧ Shaped { e' with lead } := by
  obtain ⟨value, value', key, colon, hkind, hes, hkey, hisValue, hvalue, hpruned, hdead⟩ := h
  have hclear : target.covers (around ++ [e]) = false := by
    by_contra hcovers
    rw [leafChains_entry hkind hes] at hleft
    exact hleft (Target.left_eq_nil (by simpa using hcovers))
  have hpruned := hpruned hclear
  have hisValue' : IsValue value' := by
    rw [IsValue, hpruned.kind]
    exact hisValue
  rw [leafChains_entry hkind hes] at hleft
  obtain ⟨e'', he''⟩ : ∃ e'' : Node, e'' = { e with
    lead, children := [.token key, .token colon, .node value'] } := ⟨_, rfl⟩
  have hkind'' : e''.kind = .yaml .entry := by rw [he'']; exact hkind
  have hes'' : e''.children = [.token key, .token colon, .node value'] := by rw [he'']
  have hkeyText : keyText e'' = keyText e := by
    rw [keyText, keyText, entryKey_entry hkind'' hes'' hkey, entryKey_entry hkind hes hkey]
  have hkeys : ∀ around', around'.map keyText = around.map keyText →
      (around' ++ [e'']).map keyText = (around ++ [e]).map keyText := by
    intro around' h
    simp [h, hkeyText]
  show PrunesNode target around e { e with
    lead, children := [.token key, .token colon, .node value'] } ∧ Shaped { e with
    lead, children := [.token key, .token colon, .node value'] }
  rw [← he'']
  refine ⟨⟨?_, ?_, ?_⟩, .entry hkind'' hes'' hkey hisValue' (hpruned.shaped hleft)⟩
  · rw [leafPaths_entry hkind'' hes'', ← keyPath_snoc, keyPath_congr (hkeys around rfl),
      leafChains_entry hkind hes]
    exact hpruned.content.leaves
  · intro around' h
    rw [entryChains_entry hkind'' hes'', entryChains_entry hkind hes, List.map_cons,
      hpruned.content.entries _ (hkeys around' h), hkeys around' h,
      ← List.singleton_append (l := entryChains _ value), Target.holding_append,
      Target.holding_singleton, leavesUnder_entry hes, if_neg hleft]
    rfl
  · intro around' h chain hchain
    rw [entryChains_entry hkind'' hes''] at hchain
    rcases List.mem_cons.1 hchain with rfl | hchain
    · -- Were it selected now, its value would be the old one.
      rw [selects_entry (entryValue_entry hkind'' hes''), keyPath_congr (hkeys around' h)]
      by_contra hselects
      rw [Bool.not_eq_false, Bool.and_eq_true, beq_iff_eq] at hselects
      obtain ⟨rfl, _⟩ := hdead (by rw [hselects.1]; simp [KeyPath.continues])
      refine absurd (Target.covers_iff.2 ⟨_, List.prefix_refl _, ?_⟩) (by rw [hclear]; simp)
      rw [selects_entry (entryValue_entry hkind hes), hselects.1, hselects.2]
      simp
    · exact hpruned.content.unselected _ (hkeys around' h) chain hchain

section
variable (hlive : target.path.continues (keyPath around) = true) (orphans : Orphans)
  (path : List Nat) (index : Nat) (p : Progress) (rest : List Element)
include hlive

theorem sweep_gone (hnil : target.left (leafChains around e) = []) :
    sweep target (keyPath around) orphans path index p (.node e' :: rest) =
      sweep target (keyPath around) orphans path (index + 1) (p.delete e') rest := by
  rw [sweep, (h.deletes_iff hlive).2 hnil]
  rfl

theorem sweep_stays (hleft : target.left (leafChains around e) ≠ []) :
    sweep target (keyPath around) orphans path index p (.node e' :: rest) =
      sweep target (keyPath around) orphans path (index + 1)
        (p.keep e' (orphans.at? (path ++ [index, 2]))) rest := by
  have hdeletes : target.deletes (keyPath around) e' = false := by
    simpa using (h.deletes_iff hlive).not.2 hleft
  have hvalue : valueIndex? e' = some 2 := by
    obtain ⟨_⟩ := h
    rfl
  rw [sweep, hdeletes, hvalue]
  rfl

end

end Visited

/-! ### The entries of a mapping -/

/-- What a visit makes of the children of a mapping at a path, where what was left to an entry's
value tells that the entry was changed. -/
inductive VisitedAll (target : Target) (around : List Node) (orphans : Orphans)
    (path : List Nat) : Nat → List Element → List Element → Bool → Prop where
  | nil {index : Nat} : VisitedAll target around orphans path index [] [] false
  | cons {index : Nat} {e e' : Node} {es es' : List Element} {changed others : Bool}
      (h : Visited target around e e' changed)
      (hfound : (orphans.at? (path ++ [index, 2])).isSome = true → changed = true)
      (hrest : VisitedAll target around orphans path (index + 1) es es' others) :
      VisitedAll target around orphans path index (.node e :: es) (.node e' :: es')
        (changed || others)

theorem VisitedAll.ne_nil {orphans : Orphans} {path : List Nat} {index : Nat} {es es' : List Element}
    {below : Bool} (h : VisitedAll target around orphans path index es es' below) (hne : es ≠ []) :
    es' ≠ [] := by
  cases h with
  | nil => exact hne
  | cons => simp

theorem Progress.keep_kept (p : Progress) (e : Node) (orphan : Option Carry) :
    ∃ lead, (p.keep e orphan).kept = p.kept ++ [.node { e with lead }] := by
  rw [Progress.keep]
  cases p.carry? with
  | none => exact ⟨e.lead, by cases e; rfl⟩
  | some carry => exact ⟨_, rfl⟩

section
variable {orphans : Orphans} {path : List Nat} {index : Nat} {es es' : List Element} {below : Bool}
  (hlive : target.path.continues (keyPath around) = true)
  (h : VisitedAll target around orphans path index es es' below)
include hlive h

theorem sweep_prunes (p : Progress) :
    ∃ kept, (sweep target (keyPath around) orphans path index p es').kept = p.kept ++ kept ∧
      PrunesList target around es kept ∧ EntriesOnly kept ∧
        (∀ c, Element.node c ∈ kept → Shaped c) ∧
          (target.left (leafChainsList around es) = [] → kept = []) := by
  induction h generalizing p with
  | nil =>
      refine ⟨[], by rw [sweep, List.append_nil], ⟨rfl, fun _ _ => rfl, nofun⟩, nofun, nofun,
        fun _ => rfl⟩
  | @cons index e e' es es' changed others h hfound hrest ih =>
      rw [leafChainsList, leafChainsElement, Target.left_append]
      by_cases hnil : target.left (leafChains around e) = []
      · obtain ⟨kept, hkept, hprunes, honly, hshaped, hempty⟩ := ih (p.delete e')
        rw [h.sweep_gone hlive orphans path index p es' hnil, hnil]
        exact ⟨kept, hkept, (Prunes.drop h.shaped hnil).append hprunes, honly, hshaped, hempty⟩
      · obtain ⟨lead, hlead⟩ := p.keep_kept e' (orphans.at? (path ++ [index, 2]))
        obtain ⟨kept, hkept, hprunes, honly, hshaped, _⟩ :=
          ih (p.keep e' (orphans.at? (path ++ [index, 2])))
        obtain ⟨hcontent, hentry⟩ := h.stays hnil lead
        rw [h.sweep_stays hlive orphans path index p es' hnil]
        refine ⟨.node { e' with lead } :: kept, ?_, hcontent.append hprunes, ?_, ?_, ?_⟩
        · rw [hkept, hlead, List.append_assoc]
          rfl
        · exact List.forall_mem_cons.2 ⟨⟨_, rfl, h.isEntry⟩, honly⟩
        · intro c hc
          rcases List.mem_cons.1 hc with hc | hc
          · cases hc
            exact hentry
          · exact hshaped c hc
        · exact fun hall => absurd (List.append_eq_nil_iff.1 hall).1 hnil

theorem exists_selected_of_sweep {p : Progress}
    (hchanged : below = true ∨
      (sweep target (keyPath around) orphans path index p es').changed = true)
    (hp : p.changed = false) :
    ∃ chain ∈ entryChainsList around es, target.selects chain = true := by
  induction h generalizing p with
  | nil =>
      rw [sweep, hp] at hchanged
      simp at hchanged
  | @cons index e e' es es' changed others h hfound hrest ih =>
      rw [entryChainsList, entryChainsElement]
      by_cases hfirst : ∃ chain ∈ entryChains around e, target.selects chain = true
      · obtain ⟨chain, hchain, hselects⟩ := hfirst
        exact ⟨chain, List.mem_append_left _ hchain, hselects⟩
      · have hsame : changed = false := by
          by_contra hne
          exact hfirst (h.exists_selected_of_changed hlive (by simpa using hne))
        have hleft : target.left (leafChains around e) ≠ [] := fun hnil =>
          hfirst (h.exists_selected_of_left hlive hnil)
        have hnone : orphans.at? (path ++ [index, 2]) = none := by
          by_contra hsome
          rw [hfound (Option.isSome_iff_ne_none.2 hsome)] at hsame
          cases hsame
        rw [h.sweep_stays hlive orphans path index p es' hleft, hnone, hsame,
          Bool.false_or] at hchanged
        obtain ⟨chain, hchain, hselects⟩ := ih hchanged (by simp [Progress.keep, hp])
        exact ⟨chain, List.mem_append_right _ hchain, hselects⟩

theorem sweep_changed {p : Progress} (hp : p.changed = true) :
    (sweep target (keyPath around) orphans path index p es').changed = true := by
  induction h generalizing p with
  | nil => exact hp
  | @cons index e e' es es' changed others h hfound hrest ih =>
      by_cases hnil : target.left (leafChains around e) = []
      · rw [h.sweep_gone hlive orphans path index p es' hnil]
        exact ih rfl
      · rw [h.sweep_stays hlive orphans path index p es' hnil]
        exact ih (by simp [Progress.keep, hp])

theorem sweep_of_selected {chain : List Node} (hchain : chain ∈ entryChainsList around es)
    (hselects : target.selects chain = true) (p : Progress) :
    below = true ∨ (sweep target (keyPath around) orphans path index p es').changed = true := by
  induction h generalizing p with
  | nil => cases hchain
  | @cons index e e' es es' changed others h hfound hrest ih =>
      by_cases hnil : target.left (leafChains around e) = []
      · rw [h.sweep_gone hlive orphans path index p es' hnil]
        exact .inr (sweep_changed hlive hrest rfl)
      · rw [h.sweep_stays hlive orphans path index p es' hnil, Bool.or_eq_true]
        rcases List.mem_append.1 hchain with hchain | hchain
        · exact .inl (.inl ((h.changed_of_selected hlive hchain hselects).resolve_right hnil))
        · exact (ih hchain _).imp_left .inr

/-- Where a mapping is not changed itself, its children are those visited. -/
theorem sweep_unchanged {p : Progress} (hcarry : p.carry? = none)
    (hsame : (sweep target (keyPath around) orphans path index p es').changed = false) :
    (sweep target (keyPath around) orphans path index p es').kept = p.kept ++ es' := by
  induction h generalizing p with
  | nil => rw [sweep, List.append_nil]
  | @cons index e e' es es' changed others h hfound hrest ih =>
      by_cases hnil : target.left (leafChains around e) = []
      · rw [h.sweep_gone hlive orphans path index p es' hnil,
          sweep_changed hlive hrest rfl] at hsame
        cases hsame
      · rw [h.sweep_stays hlive orphans path index p es' hnil] at hsame ⊢
        cases hfound : orphans.at? (path ++ [index, 2]) with
        | some carry =>
            rw [hfound, sweep_changed hlive hrest (by simp [Progress.keep])] at hsame
            cases hsame
        | none =>
            rw [hfound] at hsame
            rw [ih rfl hsame, Progress.keep, hcarry]
            simp

end

theorem sweep_starts (target : Target) (enclosing : List String) (orphans : Orphans)
    (path : List Nat) (index : Nat) (p : Progress) (es : List Element) :
    p.kept <+: (sweep target enclosing orphans path index p es).kept := by
  induction es generalizing index p with
  | nil => exact List.prefix_refl _
  | cons e es ih =>
      cases e with
      | token t =>
          rw [sweep]
          exact (List.prefix_append p.kept [.token t]).trans
            (ih (index + 1) { p with kept := p.kept ++ [.token t] })
      | node e =>
          rw [sweep]
          refine List.IsPrefix.trans ?_ (ih _ _)
          split_ifs
          · exact List.prefix_refl _
          · obtain ⟨lead, hlead⟩ := p.keep_kept e ((valueIndex? e).bind fun value =>
              orphans.at? (path ++ [index, value]))
            rw [hlead]
            exact List.prefix_append _ _

/-- A sweep that changes nothing leaves nothing. -/
theorem sweep_idle {target : Target} {enclosing : List String} {orphans : Orphans}
    {path : List Nat} {index : Nat} {es : List Element} {p : Progress}
    (hcarry : p.changed = false → p.carry? = none)
    (hsame : (sweep target enclosing orphans path index p es).changed = false) :
    (sweep target enclosing orphans path index p es).carry? = none := by
  induction es generalizing index p with
  | nil => exact hcarry hsame
  | cons e es ih =>
      cases e with
      | token t => exact ih (p := { p with kept := p.kept ++ [.token t] }) hcarry hsame
      | node e =>
          rw [sweep] at hsame ⊢
          refine ih (fun hnext => ?_) hsame
          split_ifs at hnext ⊢
          · cases hnext
          · rw [Progress.keep, Bool.or_eq_false_iff] at hnext
            exact Option.not_isSome_iff_eq_none.1 (Bool.eq_false_iff.1 hnext.2)

theorem sweep_leading {target : Target} {enclosing : List String} {orphans : Orphans}
    {path : List Nat} {index : Nat} {es : List Element} {p : Progress}
    (hcarry : (∃ lines, p.carry? = some (.leading lines)) ∨ p.carry? = none ∧ es ≠ [])
    (hempty : (sweep target enclosing orphans path index p es).kept = []) :
    ∃ lines, (sweep target enclosing orphans path index p es).carry? = some (.leading lines) := by
  induction es generalizing index p with
  | nil => exact hcarry.resolve_right fun h => h.2 rfl
  | cons e es ih =>
      have hstart := sweep_starts target enclosing orphans path index p (e :: es)
      rw [hempty] at hstart
      have hkept : p.kept = [] := List.prefix_nil.1 hstart
      cases e with
      | token t =>
          have hnext := sweep_starts target enclosing orphans path (index + 1)
            { p with kept := p.kept ++ [.token t] } es
          rw [sweep] at hempty
          rw [hempty] at hnext
          simp at hnext
      | node e =>
          rw [sweep] at hempty ⊢
          split_ifs at hempty ⊢ with hdeletes
          · refine ih (.inl ?_) hempty
            rcases hcarry with ⟨lines, hlines⟩ | ⟨hnone, _⟩
            · exact ⟨lines, by simp [Progress.delete, hlines]⟩
            · exact ⟨leadingLines e.lead, by simp [Progress.delete, hnone, hkept]⟩
          · obtain ⟨lead, hlead⟩ := p.keep_kept e ((valueIndex? e).bind fun value =>
              orphans.at? (path ++ [index, value]))
            have hnext := sweep_starts target enclosing orphans path (index + 1)
              (p.keep e ((valueIndex? e).bind fun value =>
                orphans.at? (path ++ [index, value]))) es
            rw [hempty, hlead] at hnext
            simp at hnext

/-! ### Visits -/

/-- The entries around a place, from the outermost in. -/
def chainAt (cursor : Cursor) : List Node :=
  (cursor.ancestors.filter fun n => n.kind == .yaml .entry).reverse

theorem chainAt_entry {n : Node} (index : Nat) (cursor : Cursor) (h : n.kind = .yaml .entry) :
    chainAt (⟨n, index⟩ :: cursor) = chainAt cursor ++ [n] := by
  simp [chainAt, Cursor.ancestors, h]

theorem chainAt_other {n : Node} (index : Nat) (cursor : Cursor) (h : n.kind ≠ .yaml .entry) :
    chainAt (⟨n, index⟩ :: cursor) = chainAt cursor := by
  simp [chainAt, Cursor.ancestors, h]

theorem path_cons (n : Node) (index : Nat) (cursor : Cursor) :
    Cursor.path (⟨n, index⟩ :: cursor) = cursor.path ++ [index] := by
  simp [Cursor.path]

/-- Nothing was left at or below a path. -/
def Fresh (path : List Nat) (orphans : Orphans) : Prop :=
  ∀ o ∈ orphans, ¬ path <+: o.1

theorem Fresh.below {path : List Nat} {orphans : Orphans} (h : Fresh path orphans)
    (rest : List Nat) : Fresh (path ++ rest) orphans :=
  fun o ho hstarts => h o ho ((List.prefix_append path rest).trans hstarts)

theorem not_prefix_of_lt (path : List Nat) {index i : Nat} (hi : index < i) (rest : List Nat) :
    ¬ path ++ [i] <+: path ++ index :: rest := by
  intro hstarts
  rw [List.prefix_append_right_inj, List.cons_prefix_cons] at hstarts
  omega

theorem Fresh.behind {path : List Nat} {index i : Nat} {new s : Orphans} (hi : index < i)
    (hnew : ∀ o ∈ new, path ++ [index] <+: o.1) (hs : Fresh (path ++ [i]) s) :
    Fresh (path ++ [i]) (new ++ s) := by
  intro o ho hstarts
  rcases List.mem_append.1 ho with ho | ho
  · obtain ⟨rest, hrest⟩ := hnew o ho
    rw [← hrest, List.append_assoc] at hstarts
    exact not_prefix_of_lt path hi rest hstarts
  · exact hs o ho hstarts

theorem mem_of_at {orphans : Orphans} {path : List Nat} (h : (orphans.at? path).isSome = true) :
    ∃ o ∈ orphans, o.1 = path := by
  rw [Orphans.at?, Option.isSome_map, List.find?_isSome] at h
  simpa using h

/-- What a visit makes of a node at a place. -/
structure VisitedAt (target : Target) (cursor : Cursor) (n : Node) (s : Orphans) (n' : Node)
    (changed : Bool) (s' : Orphans) : Prop where
  orphans : ∃ new, s' = new ++ s ∧ (∀ o ∈ new, cursor.path <+: o.1) ∧ (changed = false → new = [])
  dead : target.path.continues (keyPath (chainAt cursor)) = false → n' = n ∧ changed = false
  value : IsValue n → target.covers (chainAt cursor) = false →
    Pruned target (chainAt cursor) n n' changed
  entry : n.kind = .yaml .entry → target.path.continues (keyPath (chainAt cursor)) = true →
    Visited target (chainAt cursor) n n' changed
  emptied : n.kind = .yaml .mapping → chainAt cursor = [] → n'.children = [] →
    (s'.at? cursor.path).isSome = true

/-- The relation of visits to shaped nodes at and below which nothing was left yet. -/
def Visiting (target : Target) (cursor : Cursor) : VisitRelation Orphans :=
  fun n s n' changed s' =>
    Shaped n → Fresh cursor.path s → VisitedAt target cursor n s n' changed s'

section
variable {parent : Node} {cursor : Cursor} {index : Nat} {es es' : List Element}
  {s s' : Orphans} {below : Bool}
  (hparent : parent.kind = .yaml .mapping) (honly : EntriesOnly es)
  (hshaped : ∀ c, Element.node c ∈ es → Shaped c)
  (h : SweptAt (Visiting target) parent cursor index es s es' below s')
include hparent honly hshaped h

theorem visitedAll_of_swept (hlive : target.path.continues (keyPath (chainAt cursor)) = true)
    (hfresh : ∀ i, index ≤ i → Fresh (cursor.path ++ [i]) s) :
    (∃ later, s' = later ++ s ∧ (∀ o ∈ later, ∃ i, index ≤ i ∧ cursor.path ++ [i] <+: o.1) ∧
      (below = false → later = [])) ∧
    VisitedAll target (chainAt cursor) s' cursor.path index es es' below := by
  have hother : parent.kind ≠ .yaml .entry := by rw [hparent]; decide
  induction h with
  | nil => exact ⟨⟨[], rfl, nofun, fun _ => rfl⟩, .nil⟩
  | token =>
      obtain ⟨_, ⟨⟩, _⟩ := honly _ List.mem_cons_self
  | @node index e e' es es' s s₁ s' changed others hn h ih =>
      obtain ⟨_, ⟨⟩, hkind⟩ := honly _ List.mem_cons_self
      have hn := hn (hshaped e List.mem_cons_self) (by
        rw [path_cons]
        exact hfresh index (Nat.le_refl _))
      obtain ⟨new, rfl, hnew, hnone⟩ := hn.orphans
      rw [path_cons] at hnew
      have hentry := hn.entry hkind (by rwa [chainAt_other index cursor hother])
      rw [chainAt_other index cursor hother] at hentry
      obtain ⟨⟨later, rfl, hlater, hidle⟩, hall⟩ := ih
        (fun c hc => honly c (List.mem_cons_of_mem _ hc))
        (fun c hc => hshaped c (List.mem_cons_of_mem _ hc))
        fun i hi => (hfresh i (by omega)).behind hi hnew
      refine ⟨⟨later ++ new, by rw [List.append_assoc], ?_, ?_⟩, .cons hentry ?_ hall⟩
      · intro o ho
        rcases List.mem_append.1 ho with ho | ho
        · obtain ⟨i, hi, hstarts⟩ := hlater o ho
          exact ⟨i, by omega, hstarts⟩
        · exact ⟨index, Nat.le_refl _, hnew o ho⟩
      · intro hbelow
        rw [Bool.or_eq_false_iff] at hbelow
        rw [hnone hbelow.1, hidle hbelow.2]
        rfl
      · -- What was left at the entry's value was left by the visit of this entry.
        intro hfound
        by_contra hchanged
        obtain ⟨o, ho, hpath⟩ := mem_of_at hfound
        rw [hnone (by simpa using hchanged), List.nil_append] at ho
        rcases List.mem_append.1 ho with ho | ho
        · obtain ⟨i, hi, hstarts⟩ := hlater o ho
          rw [hpath] at hstarts
          exact not_prefix_of_lt cursor.path hi _ hstarts
        · refine hfresh index (Nat.le_refl _) o ho ?_
          rw [hpath]
          exact ⟨[2], by simp⟩

/-- Where the path of the target does not lead, nothing changes. -/
theorem same_of_swept (hdead : target.path.continues (keyPath (chainAt cursor)) = false)
    (hfresh : ∀ i, index ≤ i → Fresh (cursor.path ++ [i]) s) :
    es' = es ∧ below = false ∧ s' = s := by
  have hother : parent.kind ≠ .yaml .entry := by rw [hparent]; decide
  induction h with
  | nil => exact ⟨rfl, rfl, rfl⟩
  | token =>
      obtain ⟨_, ⟨⟩, _⟩ := honly _ List.mem_cons_self
  | @node index e e' es es' s s₁ s' changed others hn h ih =>
      have hn := hn (hshaped e List.mem_cons_self) (by
        rw [path_cons]
        exact hfresh index (Nat.le_refl _))
      obtain ⟨rfl, rfl⟩ := hn.dead (by rwa [chainAt_other index cursor hother])
      obtain ⟨new, rfl, _, hnone⟩ := hn.orphans
      obtain rfl := hnone rfl
      obtain ⟨rfl, rfl, rfl⟩ := ih (fun c hc => honly c (List.mem_cons_of_mem _ hc))
        (fun c hc => hshaped c (List.mem_cons_of_mem _ hc)) fun i hi => hfresh i (by omega)
      exact ⟨rfl, rfl, rfl⟩

end

theorem prunesNode_mapping {n n' : Node} (hkind : n.kind = .yaml .mapping)
    (hkind' : n'.kind = .yaml .mapping) (h : PrunesList target around n.children n'.children) :
    PrunesNode target around n n' := by
  have hn : n.kind ≠ .yaml .entry ∧ n.kind ≠ .yaml .scalar := by simp [hkind]
  have hn' : n'.kind ≠ .yaml .entry ∧ n'.kind ≠ .yaml .scalar := by simp [hkind']
  rw [PrunesNode, leafChains_inner hn.1 hn.2, entryChains_inner hn.1, leafPaths_inner hn'.1 hn'.2,
    funext fun around' => entryChains_inner hn'.1 around']
  exact h

/-! ### Each kind of node -/

theorem eta_eq (n : Node) : (⟨n.kind, n.lead, n.children, n.markers, n.type?⟩ : Node) = n := by
  cases n
  rfl

theorem continues_of_append {path rest : List String}
    (h : target.path.continues (path ++ rest) = true) : target.path.continues path = true := by
  rw [KeyPath.continues, Bool.and_eq_true, decide_eq_true_eq, List.isPrefixOf_iff_prefix] at h ⊢
  rw [List.length_append] at h
  exact ⟨by omega, (List.prefix_append _ _).trans h.2⟩

theorem enclosing_ne_nil {path : List String} (hdead : target.path.continues path = false) :
    path.isEmpty = false := by
  cases path with
  | nil =>
      rw [Target.continues_nil] at hdead
      cases hdead
  | cons part parts => rfl

/-- A mapping into which the path of the target does not lead stays. -/
theorem mapping_dead {n : Node} {cursor : Cursor} {orphans : Orphans}
    (hdead : target.path.continues (keyPath (chainAt cursor)) = false) :
    mapping target n cursor orphans = (none, orphans) := by
  have hpath : enclosingPath cursor = keyPath (chainAt cursor) := rfl
  simp [mapping, hpath, hdead, enclosing_ne_nil hdead]

theorem mapping_live {n : Node} {cursor : Cursor} {orphans : Orphans}
    (hlive : target.path.continues (keyPath (chainAt cursor)) = true) :
    let p := sweep target (keyPath (chainAt cursor)) orphans cursor.path 0 {} n.children
    mapping target n cursor orphans =
      if p.changed then
        (some { n with children := p.kept },
          ((leftBehind (keyPath (chainAt cursor)) p.carry?).toList.map
            fun c => (cursor.path, c)) ++ orphans)
      else (none, orphans) := by
  have hpath : enclosingPath cursor = keyPath (chainAt cursor) := rfl
  simp [mapping, hpath, hlive]

section
variable {n : Node} {cursor : Cursor} {s s' : Orphans} {es' : List Element} {below : Bool}
  (hkind : n.kind = .yaml .mapping) (hn : Shaped n)
include hkind hn

theorem mapping_children :
    n.children ≠ [] ∧ EntriesOnly n.children ∧ ∀ c, Element.node c ∈ n.children → Shaped c := by
  cases hn with
  | scalar hk _ =>
      rw [hkind] at hk
      cases hk
  | entry hk _ _ _ _ =>
      rw [hkind] at hk
      cases hk
  | mapping _ hne honly h => exact ⟨hne, honly, h⟩

theorem visitedAt_dead (hfresh : Fresh cursor.path s)
    (h : SweptAt (Visiting target) n cursor 0 n.children s es' below s')
    (hdead : target.path.continues (keyPath (chainAt cursor)) = false) :
    VisitedAt target cursor n s { n with children := es' } below s' := by
  obtain ⟨hne, honly, hshaped⟩ := mapping_children hkind hn
  obtain ⟨rfl, rfl, rfl⟩ :=
    same_of_swept hkind honly hshaped h hdead fun i _ => hfresh.below [i]
  rw [eta_eq]
  refine ⟨⟨[], rfl, nofun, fun _ => rfl⟩, fun _ => ⟨rfl, rfl⟩, fun _ hclear => ?_, ?_, ?_⟩
  · exact .self hn hclear (Target.selects_eq_false hn hdead)
  · intro hentry
    rw [hkind] at hentry
    cases hentry
  · exact fun _ _ hempty => absurd hempty hne

omit hn in
theorem pruned_mapping (hlive : target.path.continues (keyPath (chainAt cursor)) = true)
    (hall : VisitedAll target (chainAt cursor) s' cursor.path 0 n.children es' below) :
    let p := sweep target (keyPath (chainAt cursor)) s' cursor.path 0 {} es'
    Pruned target (chainAt cursor) n { n with children := p.kept } (below || p.changed) := by
  intro p
  obtain ⟨kept, hkept, hprunes, honly, hshaped, hempty⟩ := sweep_prunes hlive hall {}
  obtain rfl : p.kept = kept := hkept
  obtain ⟨n', hn'⟩ : ∃ n' : Node, n' = { n with children := p.kept } := ⟨_, rfl⟩
  have hkind' : n'.kind = .yaml .mapping := by rw [hn']; exact hkind
  have hes' : n'.children = p.kept := by rw [hn']
  have hcontent : PrunesNode target (chainAt cursor) n n' :=
    prunesNode_mapping hkind hkind' (hes' ▸ hprunes)
  rw [← hn']
  refine ⟨hcontent, hkind'.trans hkind.symm, fun hleaves => ?_, fun hnil => ?_, ?_⟩
  · refine .mapping hkind' (fun hnone => ?_) (hes' ▸ honly) (hes' ▸ hshaped)
    have hpaths := hcontent.leaves
    rw [leafPaths_inner (by simp [hkind']) (by simp [hkind']), hnone] at hpaths
    exact hleaves (List.map_eq_nil_iff.1 hpaths.symm)
  · rw [leafChains_inner (by simp [hkind]) (by simp [hkind])] at hnil
    exact ⟨hkind', hes' ▸ hempty hnil⟩
  · rw [entryChains_inner (by simp [hkind]), Bool.or_eq_true]
    constructor
    · exact fun hchanged => exists_selected_of_sweep hlive hall hchanged rfl
    · rintro ⟨chain, hchain, hselects⟩
      exact sweep_of_selected hlive hall hchain hselects {}

theorem mapping_visits (hfresh : Fresh cursor.path s)
    (h : SweptAt (Visiting target) n cursor 0 n.children s es' below s') :
    let v : Node := { n with children := es' }
    let left := mapping target v cursor s'
    VisitedAt target cursor n s (left.1.getD v) (below || left.1.isSome) left.2 := by
  intro v left
  cases hlive : target.path.continues (keyPath (chainAt cursor)) with
  | false =>
      have hleft : left = (none, s') := mapping_dead hlive
      rw [hleft]
      simpa using visitedAt_dead hkind hn hfresh h hlive
  | true =>
      obtain ⟨hne, honly, hshaped⟩ := mapping_children hkind hn
      obtain ⟨⟨later, hlater, hstarts, hidle⟩, hall⟩ :=
        visitedAll_of_swept hkind honly hshaped h hlive fun i _ => hfresh.below [i]
      have hpruned := pruned_mapping hkind hlive hall
      have hleft : left = _ := mapping_live hlive
      simp only at hpruned hleft
      obtain ⟨p, hp⟩ : ∃ p, sweep target (keyPath (chainAt cursor)) s' cursor.path 0 {} es' = p :=
        ⟨_, rfl⟩
      rw [hp] at hpruned hleft
      have hes' : es' ≠ [] := hall.ne_nil hne
      have hlater' : (∀ o ∈ later, cursor.path <+: o.1) := fun o ho => by
        obtain ⟨i, _, hi⟩ := hstarts o ho
        exact (List.prefix_append _ _).trans hi
      have hnotEntry : n.kind ≠ .yaml .entry := by simp [hkind]
      cases hchanged : p.changed with
      | false =>
          -- A mapping that is not changed itself has the visited children, which all stay.
          have hkept : p.kept = es' := by
            rw [← hp, sweep_unchanged hlive hall rfl (hp ▸ hchanged)]
            rfl
          rw [hchanged, hkept] at hpruned
          rw [hchanged, if_neg (by simp)] at hleft
          rw [hleft]
          refine ⟨⟨later, hlater, hlater', fun hbelow => hidle (by simpa using hbelow)⟩,
            fun hdead => ?_, fun _ _ => hpruned, fun hentry => absurd hentry hnotEntry,
            fun _ _ hempty => absurd hempty hes'⟩
          rw [hlive] at hdead
          cases hdead
      | true =>
          rw [hchanged] at hpruned
          rw [hchanged, if_pos rfl] at hleft
          rw [hleft]
          refine ⟨⟨_ ++ later, by rw [hlater, List.append_assoc], ?_, by simp⟩,
            fun hdead => ?_, fun _ _ => hpruned, fun hentry => absurd hentry hnotEntry, ?_⟩
          · intro o ho
            rcases List.mem_append.1 ho with ho | ho
            · obtain ⟨c, _, rfl⟩ := List.mem_map.1 ho
              exact List.prefix_refl _
            · exact hlater' o ho
          · rw [hlive] at hdead
            cases hdead
          · intro _ hroot hempty
            obtain ⟨lines, hlines⟩ := sweep_leading (p := {}) (.inr ⟨rfl, hes'⟩) (hp ▸ hempty)
            rw [hp] at hlines
            simp [hlines, hroot, keyPath, leftBehind, Orphans.at?]

end

theorem entry_visits {n value : Node} {key colon : Token} {cursor : Cursor} {s s' : Orphans}
    {es' : List Element} {below : Bool} (hkind : n.kind = .yaml .entry)
    (hes : n.children = [.token key, .token colon, .node value]) (hkey : key.kind = .text)
    (hisValue : IsValue value) (hvalue : Shaped value) (hfresh : Fresh cursor.path s)
    (h : SweptAt (Visiting target) n cursor 0 n.children s es' below s') :
    VisitedAt target cursor n s { n with children := es' } below s' := by
  rw [hes] at h
  cases h with
  | token h =>
  cases h with
  | token h =>
  cases h with
  | @node _ _ value' _ _ _ _ _ changed _ hn h =>
  cases h
  have hvisited := hn hvalue (by
    rw [path_cons]
    exact hfresh.below [2])
  obtain ⟨new, rfl, hnew, hidle⟩ := hvisited.orphans
  rw [path_cons] at hnew
  have hchain := chainAt_entry 2 cursor hkind
  have hentry : ¬ n.kind = .yaml .mapping := by simp [hkind]
  rw [Bool.or_false]
  refine ⟨⟨new, rfl, fun o ho => (List.prefix_append _ _).trans (hnew o ho), hidle⟩,
    fun hdead => ?_, fun hvalue' => ?_, fun _ _ => ?_, fun hmapping => absurd hmapping hentry⟩
  · have hbelow : target.path.continues (keyPath (chainAt (⟨n, 2⟩ :: cursor))) = false := by
      rw [hchain, keyPath_snoc]
      by_contra hlive
      rw [continues_of_append (by simpa using hlive)] at hdead
      cases hdead
    obtain ⟨rfl, rfl⟩ := hvisited.dead hbelow
    refine ⟨?_, rfl⟩
    rw [← hes, eta_eq]
  · rcases hvalue' with h | h <;> rw [hkind] at h <;> cases h
  · exact .intro value value' key colon hkind hes hkey hisValue hvalue
      (fun hclear => hchain ▸ hvisited.value hisValue (by rwa [hchain]))
      fun hdead => hvisited.dead (by rwa [hchain])

theorem leave_inner {target : Target} {n : Node} {cursor : Cursor} {s : Orphans}
    (hmapping : n.kind ≠ .yaml .mapping) (hdocument : n.kind ≠ .yaml .document) :
    (visitor target).leave n cursor s = (none, s) := by
  show Hooks.leave _ n cursor s = (none, s)
  rw [Hooks.leave]
  split
  · contradiction
  · contradiction
  · rfl
  · rfl
  · rfl

theorem leave_mapping {target : Target} {n : Node} {cursor : Cursor} {s : Orphans}
    (hkind : n.kind = .yaml .mapping) :
    (visitor target).leave n cursor s = mapping target n cursor s := by
  show Hooks.leave _ n cursor s = _
  rw [Hooks.leave, hkind]

/-- What a visit makes of a node when it leaves it. -/
theorem leaves_visiting (target : Target) : (visitor target).LeavesAt (Visiting target) := by
  intro n cursor s s' es' changed hswept v left hn hfresh
  cases hn with
  | @scalar _ t hkind hes =>
      have hleft : left = (none, s') :=
        leave_inner (n := v) (by simp [v, hkind]) (by simp [v, hkind])
      rw [hes] at hswept
      cases hswept with
      | token h =>
      cases h
      rw [hleft]
      show VisitedAt target cursor n s ⟨n.kind, n.lead, [.token t], n.markers, n.type?⟩ false s
      rw [← hes, eta_eq]
      have hnone : entryChains (chainAt cursor) n = [] := entryChains_scalar _ hkind hes
      refine ⟨⟨[], rfl, nofun, fun _ => rfl⟩, fun _ => ⟨rfl, rfl⟩, fun _ hclear => ?_, ?_, ?_⟩
      · exact .self (.scalar hkind hes) hclear (by rw [hnone]; nofun)
      · intro hentry
        rw [hkind] at hentry
        cases hentry
      · intro hmapping
        rw [hkind] at hmapping
        cases hmapping
  | entry hkind hes hkey hisValue hvalue =>
      have hleft : left = (none, s') :=
        leave_inner (n := v) (by simp [v, hkind]) (by simp [v, hkind])
      rw [hleft]
      simpa using entry_visits hkind hes hkey hisValue hvalue hfresh hswept
  | mapping hkind hne honly h =>
      have hleft : left = mapping target v cursor s' := leave_mapping hkind
      rw [hleft]
      exact mapping_visits hkind (.mapping hkind hne honly h) hfresh hswept

end Codemod.Recipes.Deletion
