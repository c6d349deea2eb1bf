import Codemod.Proofs.Yaml.Shape
import Codemod.Yaml.Entry
import Mathlib.Data.List.Basic

/-!
The entries around each scalar and each entry of a document. A chain of entries leads from the
outermost in, and its keys together spell a key path.
-/

namespace Codemod.Yaml

open Codemod.Tree

/-- The key path that a chain of entries spells. -/
def keyPath (chain : List Node) : List String :=
  chain.flatMap entrySegments

/-- The key of an entry as it is written. -/
def keyText (entry : Node) : Option String :=
  (entryKey? entry).map Token.text

mutual

/-- The scalars below a node in order, each as its raw text behind the chain of entries around it,
where `around` leads to the node. -/
def leafChains (around : List Node) : Node → List (List Node × String)
  | n@⟨kind, _, children, _, _⟩ =>
      if kind = .yaml .entry then leafChainsList (around ++ [n]) children
      else
        match scalarText? n with
        | some raw => [(around, raw)]
        | none => leafChainsList around children

/-- The scalars in a child, each behind the entries around it. -/
def leafChainsElement (around : List Node) : Element → List (List Node × String)
  | .node n => leafChains around n
  | .token _ => []

/-- The scalars in some children, each behind the entries around it. -/
def leafChainsList (around : List Node) : List Element → List (List Node × String)
  | [] => []
  | e :: es => leafChainsElement around e ++ leafChainsList around es

end

mutual

/-- The entries below a node in order, each as the chain that ends with it. -/
def entryChains (around : List Node) : Node → List (List Node)
  | n@⟨kind, _, children, _, _⟩ =>
      if kind = .yaml .entry then (around ++ [n]) :: entryChainsList (around ++ [n]) children
      else entryChainsList around children

/-- The entries in a child, each as the chain that ends with it. -/
def entryChainsElement (around : List Node) : Element → List (List Node)
  | .node n => entryChains around n
  | .token _ => []

/-- The entries in some children, each as the chain that ends with it. -/
def entryChainsList (around : List Node) : List Element → List (List Node)
  | [] => []
  | e :: es => entryChainsElement around e ++ entryChainsList around es

end

/-- The scalars below the last entry of a chain. -/
def leavesUnder (chain : List Node) : List (List Node × String) :=
  match chain.getLast? with
  | some entry => leafChainsList chain entry.children
  | none => []

/-- A scalar with the key path that leads to it. -/
def leafView (leaf : List Node × String) : List String × String :=
  (keyPath leaf.1, leaf.2)

/-! ### One node -/

theorem keyPath_append (chain rest : List Node) :
    keyPath (chain ++ rest) = keyPath chain ++ keyPath rest :=
  List.flatMap_append

theorem keyPath_snoc (around : List Node) (e : Node) :
    keyPath (around ++ [e]) = keyPath around ++ entrySegments e := by
  simp [keyPath]

theorem keyPath_eq_flatMap (chain : List Node) :
    keyPath chain = (chain.filterMap keyText).flatMap keySegments := by
  induction chain with
  | nil => rfl
  | cons n chain ih =>
      rw [keyPath, List.flatMap_cons, List.filterMap_cons]
      rw [keyPath] at ih
      rw [ih, entrySegments, keyText]
      cases entryKey? n with
      | none => rfl
      | some key => rfl

/-- The path hangs on the texts of the keys only. -/
theorem keyPath_congr {chain chain' : List Node} (h : chain'.map keyText = chain.map keyText) :
    keyPath chain' = keyPath chain := by
  have htexts : ∀ chain : List Node,
      chain.filterMap keyText = (chain.map keyText).filterMap id := by
    intro chain
    rw [List.filterMap_map]
    rfl
  rw [keyPath_eq_flatMap, keyPath_eq_flatMap, htexts, h, ← htexts]

theorem keyText_entryNode (lead raw gap : List Char) (value : Node) :
    keyText (entryNode lead raw gap value) = some (String.ofList raw) :=
  rfl

theorem keySegments_ne_nil (raw : String) : keySegments raw ≠ [] := by
  unfold keySegments
  split_ifs
  · simp
  · simpa using Text.splitOn_ne_nil '.' raw.toList

theorem scalarText_eq_none {n : Node} (h : n.kind ≠ .yaml .scalar) : scalarText? n = none := by
  rw [scalarText?, if_neg h]

theorem scalarText_scalar {n : Node} {t : Token} (hkind : n.kind = .yaml .scalar)
    (h : n.children = [.token t]) : scalarText? n = some t.text := by
  rw [scalarText?, if_pos hkind, Node.tokens, h]
  rfl

section
variable {n value : Node} {key colon : Token}
  (hkind : n.kind = .yaml .entry) (h : n.children = [.token key, .token colon, .node value])
include hkind h

theorem entryValue_entry : entryValue? n = some value := by
  rw [entryValue?, if_pos hkind, Node.childNodes, h]
  rfl

theorem entryKey_entry (hkey : key.kind = .text) : entryKey? n = some key := by
  rw [entryKey?, if_pos hkind, Node.tokens, h]
  simp [Element.token?, hkey]

theorem entrySegments_entry (hkey : key.kind = .text) : entrySegments n = keySegments key.text := by
  rw [entrySegments, entryKey_entry hkind h hkey]

theorem leafChains_entry (around : List Node) :
    leafChains around n = leafChains (around ++ [n]) value := by
  obtain ⟨kind, lead, children, markers, type?⟩ := n
  cases h
  rw [leafChains, if_pos hkind]
  simp [leafChainsList, leafChainsElement]

omit hkind in
theorem leavesUnder_entry (around : List Node) :
    leavesUnder (around ++ [n]) = leafChains (around ++ [n]) value := by
  rw [leavesUnder, List.getLast?_concat]
  simp [h, leafChainsList, leafChainsElement]

theorem entryChains_entry (around : List Node) :
    entryChains around n = (around ++ [n]) :: entryChains (around ++ [n]) value := by
  obtain ⟨kind, lead, children, markers, type?⟩ := n
  cases h
  rw [entryChains, if_pos hkind]
  simp [entryChainsList, entryChainsElement]

theorem leafPaths_entry (path : List String) :
    leafPaths path n = leafPaths (path ++ entrySegments n) value := by
  obtain ⟨kind, lead, children, markers, type?⟩ := n
  cases h
  rw [leafPaths, if_pos hkind]
  simp [leafPathsList, leafPathsElement]

end

section
variable {n : Node}

theorem leafChains_scalar {t : Token} (around : List Node) (hkind : n.kind = .yaml .scalar)
    (h : n.children = [.token t]) : leafChains around n = [(around, t.text)] := by
  obtain ⟨kind, lead, children, markers, type?⟩ := n
  have hkind' : kind = .yaml .scalar := hkind
  rw [leafChains, if_neg (by simp [hkind']), scalarText_scalar hkind h]

theorem entryChains_scalar {t : Token} (around : List Node) (hkind : n.kind = .yaml .scalar)
    (h : n.children = [.token t]) : entryChains around n = [] := by
  obtain ⟨kind, lead, children, markers, type?⟩ := n
  cases h
  have hkind' : kind = .yaml .scalar := hkind
  rw [entryChains, if_neg (by simp [hkind'])]
  rfl

variable (hentry : n.kind ≠ .yaml .entry) (hscalar : n.kind ≠ .yaml .scalar)
include hentry

theorem entryChains_inner (around : List Node) :
    entryChains around n = entryChainsList around n.children := by
  obtain ⟨kind, lead, children, markers, type?⟩ := n
  rw [entryChains, if_neg hentry]

include hscalar

theorem leafChains_inner (around : List Node) :
    leafChains around n = leafChainsList around n.children := by
  obtain ⟨kind, lead, children, markers, type?⟩ := n
  rw [leafChains, if_neg hentry, scalarText_eq_none hscalar]

theorem leafPaths_inner (path : List String) :
    leafPaths path n = leafPathsList path n.children := by
  obtain ⟨kind, lead, children, markers, type?⟩ := n
  rw [leafPaths, if_neg hentry, scalarText_eq_none hscalar]

end

/-! ### Some children -/

theorem leafPathsList_eq (path : List String) (es : List Element) :
    leafPathsList path es = (es.filterMap Element.node?).flatMap (leafPaths path) := by
  induction es with
  | nil => rfl
  | cons e es ih =>
      cases e <;> simp [leafPathsList, leafPathsElement, List.filterMap_cons, Element.node?, ih]

theorem leafChainsList_eq (around : List Node) (es : List Element) :
    leafChainsList around es = (es.filterMap Element.node?).flatMap (leafChains around) := by
  induction es with
  | nil => rfl
  | cons e es ih =>
      cases e <;> simp [leafChainsList, leafChainsElement, List.filterMap_cons, Element.node?, ih]

theorem entryChainsList_eq (around : List Node) (es : List Element) :
    entryChainsList around es = (es.filterMap Element.node?).flatMap (entryChains around) := by
  induction es with
  | nil => rfl
  | cons e es ih =>
      cases e <;> simp [entryChainsList, entryChainsElement, List.filterMap_cons, Element.node?, ih]

theorem mem_leafChainsList {around : List Node} {es : List Element} {leaf : List Node × String} :
    leaf ∈ leafChainsList around es ↔ ∃ n, Element.node n ∈ es ∧ leaf ∈ leafChains around n := by
  simp only [leafChainsList_eq, List.mem_flatMap, mem_childNodes]

theorem mem_entryChainsList {around : List Node} {es : List Element} {chain : List Node} :
    chain ∈ entryChainsList around es ↔
      ∃ n, Element.node n ∈ es ∧ chain ∈ entryChains around n := by
  simp only [entryChainsList_eq, List.mem_flatMap, mem_childNodes]

/-! ### Whole trees -/

/-- The scalars with their key paths are those of the chains. -/
theorem leafPaths_eq (around : List Node) (n : Node) :
    leafPaths (keyPath around) n = (leafChains around n).map leafView := by
  induction n using Node.induction_on generalizing around with
  | step n ih =>
      have hlist : ∀ around, leafPathsList (keyPath around) n.children =
          (leafChainsList around n.children).map leafView := by
        intro around
        rw [leafPathsList_eq, leafChainsList_eq, List.map_flatMap]
        exact List.flatMap_congr fun c hc => ih c (mem_childNodes.1 hc) around
      have hentry := hlist (around ++ [n])
      obtain ⟨kind, lead, children, markers, type?⟩ := n
      rw [leafPaths, leafChains]
      split_ifs
      · rw [← keyPath_snoc, hentry]
      · cases scalarText? ⟨kind, lead, children, markers, type?⟩ with
        | some raw => rfl
        | none => exact hlist around

theorem leafChains_eq_map (front around : List Node) (n : Node) :
    leafChains (front ++ around) n =
      (leafChains around n).map fun leaf => (front ++ leaf.1, leaf.2) := by
  induction n using Node.induction_on generalizing around with
  | step n ih =>
      have hlist : ∀ around, leafChainsList (front ++ around) n.children =
          (leafChainsList around n.children).map fun leaf => (front ++ leaf.1, leaf.2) := by
        intro around
        rw [leafChainsList_eq, leafChainsList_eq, List.map_flatMap]
        exact List.flatMap_congr fun c hc => ih c (mem_childNodes.1 hc) around
      have hentry := hlist (around ++ [n])
      obtain ⟨kind, lead, children, markers, type?⟩ := n
      rw [leafChains, leafChains]
      split_ifs
      · rw [List.append_assoc, hentry]
      · cases scalarText? ⟨kind, lead, children, markers, type?⟩ with
        | some raw => rfl
        | none => exact hlist around

/-- What leads to a node stands in front of each chain of entries below it. -/
theorem entryChains_eq_map (front around : List Node) (n : Node) :
    entryChains (front ++ around) n = (entryChains around n).map (front ++ ·) := by
  induction n using Node.induction_on generalizing around with
  | step n ih =>
      have hlist : ∀ around, entryChainsList (front ++ around) n.children =
          (entryChainsList around n.children).map (front ++ ·) := by
        intro around
        rw [entryChainsList_eq, entryChainsList_eq, List.map_flatMap]
        exact List.flatMap_congr fun c hc => ih c (mem_childNodes.1 hc) around
      have hentry := hlist (around ++ [n])
      obtain ⟨kind, lead, children, markers, type?⟩ := n
      rw [entryChains, entryChains]
      split_ifs
      · rw [List.append_assoc, hentry, List.map_cons]
      · exact hlist around

theorem entryChains_ne_nil {n : Node} {chain : List Node} (h : chain ∈ entryChains [] n) :
    chain ≠ [] := by
  induction n using Node.induction_on with
  | step n ih =>
      obtain ⟨kind, lead, children, markers, type?⟩ := n
      rw [entryChains] at h
      split_ifs at h
      · rcases List.mem_cons.1 h with rfl | h
        · simp
        · obtain ⟨c, hc, h⟩ := mem_entryChainsList.1 h
          rw [← List.append_nil [_], List.nil_append, ← List.append_nil [_], entryChains_eq_map] at h
          obtain ⟨rest, _, rfl⟩ := List.mem_map.1 h
          simp
      · obtain ⟨c, hc, h⟩ := mem_entryChainsList.1 h
        exact ih c hc h

theorem entryChains_eq (around : List Node) (n : Node) :
    entryChains around n =
      if n.kind = .yaml .entry then (around ++ [n]) :: entryChainsList (around ++ [n]) n.children
      else entryChainsList around n.children := by
  cases n
  rw [entryChains]

theorem mem_preorder_of_entryChains {around chain : List Node} {n : Node}
    (h : chain ∈ entryChains around n) : ∀ m ∈ chain, m ∈ around ∨ m ∈ n.preorder := by
  induction n using Node.induction_on generalizing around with
  | step n ih =>
      have hlist : ∀ {around : List Node}, chain ∈ entryChainsList around n.children →
          ∀ m ∈ chain, m ∈ around ∨ m ∈ n.preorder := by
        intro around h m hm
        obtain ⟨c, hc, h⟩ := mem_entryChainsList.1 h
        exact (ih c hc h m hm).imp_right fun hbelow => mem_preorder.2 (.inr ⟨c, hc, hbelow⟩)
      have hself : ∀ m ∈ around ++ [n], m ∈ around ∨ m ∈ n.preorder := by
        intro m hm
        rcases List.mem_append.1 hm with hm | hm
        · exact .inl hm
        · exact .inr (List.mem_singleton.1 hm ▸ mem_preorder_self n)
      rw [entryChains_eq] at h
      split_ifs at h
      · rcases List.mem_cons.1 h with rfl | h
        · exact hself
        · exact fun m hm => (hlist h m hm).elim (hself m) .inr
      · exact hlist h

end Codemod.Yaml
