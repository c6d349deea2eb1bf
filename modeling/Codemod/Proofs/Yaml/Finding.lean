import Codemod.Proofs.Tree.Sweep
import Codemod.Proofs.Yaml.Chains
import Codemod.Yaml.Hooks

/-!
The entries that a key path addresses. They are found on the way down, by what each entry leaves of
the path. The main statement says that they are those whose full path, put together from the entries
around them on the way up, is the one looked for.
-/

namespace Codemod.Yaml

open Codemod.Tree

/-! ### Full paths below a node -/

theorem entryPathsList_eq (path : List String) (es : List Element) :
    entryPathsList path es = (es.filterMap Element.node?).flatMap (entryPaths path) := by
  induction es with
  | nil => rfl
  | cons e es ih =>
      cases e <;> simp [entryPathsList, entryPathsElement, List.filterMap_cons, Element.node?, ih]

theorem entryPaths_eq (path : List String) (n : Node) :
    entryPaths path n =
      if n.kind = .yaml .entry then
        (path ++ entrySegments n, n) :: entryPathsList (path ++ entrySegments n) n.children
      else entryPathsList path n.children := by
  cases n
  rw [entryPaths]

theorem entryPaths_entry {n value : Node} {key colon : Token} (hkind : n.kind = .yaml .entry)
    (h : n.children = [.token key, .token colon, .node value]) (path : List String) :
    entryPaths path n =
      (path ++ entrySegments n, n) :: entryPaths (path ++ entrySegments n) value := by
  rw [entryPaths_eq, if_pos hkind, h]
  simp [entryPathsList, entryPathsElement]

theorem entryPaths_inner {n : Node} (hkind : n.kind ≠ .yaml .entry) (path : List String) :
    entryPaths path n = n.childNodes.flatMap (entryPaths path) := by
  rw [entryPaths_eq, if_neg hkind, entryPathsList_eq]
  rfl

theorem entryPaths_scalar {n : Node} (h : Shaped n) (hkind : n.kind = .yaml .scalar)
    (path : List String) : entryPaths path n = [] := by
  cases h with
  | scalar _ hes =>
      rw [entryPaths_inner (by simp [hkind])]
      simp [Node.childNodes, hes, Element.node?]
  | entry hentry _ _ _ _ => simp [hentry] at hkind
  | mapping hmapping _ _ _ => simp [hmapping] at hkind

theorem entryPaths_eq_map (front path : List String) (n : Node) :
    entryPaths (front ++ path) n = (entryPaths path n).map fun x => (front ++ x.1, x.2) := by
  induction n using Node.induction_on generalizing path with
  | step n ih =>
      have hlist : ∀ path, entryPathsList (front ++ path) n.children =
          (entryPathsList path n.children).map fun x => (front ++ x.1, x.2) := by
        intro path
        rw [entryPathsList_eq, entryPathsList_eq, List.map_flatMap]
        exact List.flatMap_congr fun c hc => ih c (mem_childNodes.1 hc) path
      rw [entryPaths_eq, entryPaths_eq path]
      split_ifs
      · rw [List.append_assoc, hlist, List.map_cons]
      · exact hlist path

theorem entryPaths_ne_nil {n : Node} (h : Shaped n) : ∀ x ∈ entryPaths [] n, x.1 ≠ [] := by
  induction h with
  | scalar hkind hes => simp [entryPaths_scalar (.scalar hkind hes) hkind]
  | @entry n value key colon hkind hes hkey hvalue h ih =>
      rw [entryPaths_entry hkind hes, List.nil_append, ← List.append_nil (entrySegments n),
        entryPaths_eq_map, List.append_nil, entrySegments_entry hkind hes hkey]
      intro x hx
      rcases List.mem_cons.1 hx with rfl | hx
      · exact keySegments_ne_nil _
      · obtain ⟨y, hy, rfl⟩ := List.mem_map.1 hx
        simp [ih y hy]
  | mapping hkind _ _ _ ih =>
      rw [entryPaths_inner (by simp [hkind])]
      intro x hx
      obtain ⟨c, hc, hx⟩ := List.mem_flatMap.1 hx
      exact ih c (mem_childNodes.1 hc) x hx

/-! ### The way down -/

/-- Those of some entries whose path is this one. -/
def spelling (path : List String) (entries : List (List String × Node)) : List Node :=
  (entries.filter fun x => x.1 == path).map Prod.snd

theorem spelling_flatMap (path : List String) (ns : List Node) (f : Node → List (List String × Node)) :
    spelling path (ns.flatMap f) = ns.flatMap fun n => spelling path (f n) := by
  rw [spelling, List.filter_flatMap, List.map_flatMap]
  rfl

theorem spelling_map (front path : List String) (entries : List (List String × Node)) :
    spelling path (entries.map fun x => (front ++ x.1, x.2)) =
      if front <+: path then spelling (path.drop front.length) entries else [] := by
  have hspells : ∀ x : List String × Node, (front ++ x.1 == path) =
      (decide (front <+: path) && (x.1 == path.drop front.length)) := by
    intro x
    rw [Bool.eq_iff_iff, Bool.and_eq_true, beq_iff_eq, decide_eq_true_eq, beq_iff_eq]
    constructor
    · rintro rfl
      exact ⟨List.prefix_append _ _, List.drop_left.symm⟩
    · rintro ⟨⟨rest, rfl⟩, hx⟩
      rw [hx, List.drop_left]
  rw [spelling, List.filter_map, List.map_map]
  simp only [Function.comp_def, hspells]
  split_ifs with hfront
  · simp [spelling, hfront]
  · simp [hfront]

theorem spelling_nil {n : Node} (h : Shaped n) : spelling [] (entryPaths [] n) = [] := by
  rw [spelling, List.map_eq_nil_iff, List.filter_eq_nil_iff]
  intro x hx
  simpa using entryPaths_ne_nil h x hx

theorem spelling_entry {n value : Node} {key colon : Token} (hkind : n.kind = .yaml .entry)
    (hes : n.children = [.token key, .token colon, .node value]) (hvalue : Shaped value)
    (path : List String) :
    spelling path (entryPaths [] n) =
      if entrySegments n <+: path then
        if path.drop (entrySegments n).length = [] then [n]
        else spelling (path.drop (entrySegments n).length) (entryPaths [] value)
      else [] := by
  have hbelow : entryPaths (entrySegments n) value =
      (entryPaths [] value).map fun x => (entrySegments n ++ x.1, x.2) := by
    rw [← entryPaths_eq_map, List.append_nil]
  have hcons : spelling path (entryPaths [] n) =
      (if entrySegments n = path then [n] else []) ++
        spelling path (entryPaths (entrySegments n) value) := by
    rw [entryPaths_entry hkind hes, List.nil_append, spelling, List.filter_cons, spelling]
    split_ifs with h h' <;> simp_all
  rw [hcons, hbelow, spelling_map]
  by_cases hfront : entrySegments n <+: path
  · obtain ⟨rest, rfl⟩ := hfront
    rw [if_pos (List.prefix_append _ _), if_pos (List.prefix_append _ _), List.drop_left]
    by_cases hrest : rest = []
    · rw [if_pos hrest, hrest, spelling_nil hvalue, if_pos (List.append_nil _).symm,
        List.append_nil]
    · rw [if_neg hrest, if_neg (by simpa using hrest), List.nil_append]
  · have hother : entrySegments n ≠ path := fun h => hfront (h ▸ List.prefix_refl _)
    rw [if_neg hfront, if_neg hfront, if_neg hother, List.append_nil]

theorem matchesWithin_eq {limit : Nat} {remaining : List String} {m : Node} (hm : Shaped m)
    (hkind : m.kind = .yaml .mapping) (hlimit : remaining.length ≤ limit) :
    matchesWithin limit remaining m = spelling remaining (entryPaths [] m) := by
  induction limit generalizing remaining m with
  | zero =>
      obtain rfl : remaining = [] := by simpa using hlimit
      rw [spelling_nil hm, matchesWithin]
  | succ limit ih =>
      rw [matchesWithin, entryPaths_inner (by simp [hkind]), spelling_flatMap]
      refine List.flatMap_congr fun e he => ?_
      obtain ⟨honly, hshaped⟩ : EntriesOnly m.children ∧ Shaped e :=
        ⟨(mapping_of_shaped hm (mem_preorder_self m) hkind).2, hm.child (mem_childNodes.1 he)⟩
      obtain ⟨_, hnode, hentry⟩ := honly _ (mem_childNodes.1 he)
      cases hnode
      obtain ⟨value, key, colon, hes, hkey, hvalue, hvalueShaped⟩ := hshaped.entry_children hentry
      have hsome : entrySegments e ≠ [] := by
        rw [entrySegments_entry hentry hes hkey]
        exact keySegments_ne_nil _
      rw [spelling_entry hentry hes hvalueShaped]
      by_cases hfront : entrySegments e <+: remaining
      · obtain ⟨rest, rfl⟩ := hfront
        have hlimit' : rest.length ≤ limit := by
          have hlength := List.length_pos_iff.2 hsome
          rw [List.length_append] at hlimit
          omega
        have hgo : ((entrySegments e).isEmpty ||
            !(entrySegments e).isPrefixOf (entrySegments e ++ rest)) = false := by
          simp [hsome]
        simp only [hgo, entryValue_entry hentry hes, List.drop_left, List.prefix_append, if_true]
        by_cases hrest : rest = []
        · simp [hrest]
        · rw [if_neg hrest, if_neg (by simp), if_neg (by simpa using hrest)]
          rcases hvalue with hscalar | hmapping
          · rw [if_neg (by simp [hscalar]), entryPaths_scalar hvalueShaped hscalar]
            rfl
          · rw [if_pos hmapping, ih hvalueShaped hmapping hlimit']
      · have hstop : ((entrySegments e).isEmpty || !(entrySegments e).isPrefixOf remaining) = true := by
          have hother := mt List.isPrefixOf_iff_prefix.1 hfront
          simp [hother]
        rw [if_pos hstop, if_neg hfront]

theorem findEntries_eq {document : Node} (h : DocumentShaped document) (path : KeyPath) :
    findEntries document path = spelling path.parts (entryPaths [] document) := by
  rw [entryPaths_inner (by simp [h.kind])]
  rcases h.childNodes with hnone | ⟨m, hnodes, hkind, hm⟩
  · simp [findEntries, documentMapping?, Node.firstChild?, hnone, spelling]
  · have hmapping : documentMapping? document = some m := by
      simp [documentMapping?, Node.firstChild?, hnodes, hkind]
    rw [findEntries, hmapping, hnodes, List.flatMap_singleton]
    exact matchesWithin_eq hm hkind (Nat.le_refl _)

/-! ### The way up -/

/-- The steps that note each node, with its place, when it is entered. -/
def noting : Hooks (List (Node × Cursor)) where
  enter := fun n cursor seen => (none, seen ++ [(n, cursor)])

/-- The nodes of a document in the order in which a walk enters them, each with its place. -/
def visited (document : Node) : List (Node × Cursor) :=
  (noting.visitor.walk document []).2

/-- The segments of the entries around a node under visit, and of its own key. -/
def fullPath (n : Node) (cursor : Cursor) : List String :=
  enclosingPath cursor ++ entrySegments n

/-- The entries among some nodes with their places, each with its full path. -/
def entriesOf (seen : List (Node × Cursor)) : List (List String × Node) :=
  (seen.filter fun v => v.1.kind == .yaml .entry).map fun v => (fullPath v.1 v.2, v.1)

theorem entriesOf_append (seen seen' : List (Node × Cursor)) :
    entriesOf (seen ++ seen') = entriesOf seen ++ entriesOf seen' := by
  simp [entriesOf]

theorem enclosingPath_cons (n : Node) (index : Nat) (cursor : Cursor) :
    enclosingPath (⟨n, index⟩ :: cursor) =
      if n.kind = .yaml .entry then enclosingPath cursor ++ entrySegments n else enclosingPath cursor := by
  split_ifs with h <;> simp [enclosingPath, Cursor.ancestors, h]

/-- A visit of a node notes the nodes below it in their order. -/
def Notes (cursor : Cursor) (n : Node) (before after : List (Node × Cursor)) : Prop :=
  ∃ seen, after = before ++ seen ∧ seen.map Prod.fst = n.preorder ∧
    entriesOf seen = entryPaths (enclosingPath cursor) n

theorem notes_children {parent : Node} {cursor : Cursor} {index : Nat} {path : List String}
    {es es' : List Element} {before after : List (Node × Cursor)} {changed : Bool}
    (hpath : ∀ index, enclosingPath (⟨parent, index⟩ :: cursor) = path)
    (h : SweptAt (fun cursor n s _ _ s' => Notes cursor n s s') parent cursor index es before es'
      changed after) :
    ∃ seen, after = before ++ seen ∧ seen.map Prod.fst = Node.preorderList es ∧
      entriesOf seen = entryPathsList path es := by
  induction h with
  | nil => exact ⟨[], by simp, rfl, rfl⟩
  | token _ ih => exact ih
  | node hn _ ih =>
      obtain ⟨seen, rfl, hnodes, hentries⟩ := hn
      obtain ⟨others, rfl, hnodes', hentries'⟩ := ih
      refine ⟨seen ++ others, by simp, ?_, ?_⟩
      · rw [List.map_append, hnodes, hnodes']
        rfl
      · rw [entriesOf_append, hentries, hentries', hpath]
        rfl

theorem leave_noting (n : Node) (cursor : Cursor) (seen : List (Node × Cursor)) :
    noting.visitor.leave n cursor seen = (none, seen) := by
  show noting.leave n cursor seen = _
  rw [Hooks.leave]
  split <;> rfl

theorem leaves_noting :
    noting.visitor.LeavesAt fun cursor n before _ _ after => Notes cursor n before after := by
  intro n cursor before after es' changed hswept
  obtain ⟨seen, rfl, hnodes, hentries⟩ :=
    notes_children (fun index => enclosingPath_cons n index cursor) hswept
  show Notes cursor n before (noting.visitor.leave _ cursor (before ++ [(n, cursor)] ++ seen)).2
  rw [leave_noting]
  refine ⟨(n, cursor) :: seen, List.append_assoc .., ?_, ?_⟩
  · rw [List.map_cons, hnodes]
    cases n
    rfl
  · rw [entryPaths_eq]
    by_cases hkind : n.kind = .yaml .entry
    · rw [if_pos hkind] at hentries ⊢
      rw [← hentries, entriesOf, List.filter_cons_of_pos (by simp [hkind])]
      rfl
    · rw [if_neg hkind] at hentries ⊢
      rw [← hentries, entriesOf, List.filter_cons_of_neg (by simp [hkind])]
      rfl

theorem visited_spec {document : Node} (hkind : document.kind = .yaml .document) :
    (visited document).map Prod.fst = document.preorder ∧
      entriesOf (visited document) = entryPaths [] document := by
  have haccepts : noting.visitor.accepts document = true := by
    simp [noting, Hooks.visitor, hkind]
  obtain ⟨⟨seen, hseen, hspec⟩, -⟩ :=
    Visitor.walk_leftAt (fun _ _ _ => rfl) leaves_noting haccepts ([] : List (Node × Cursor))
  rw [visited, hseen]
  exact hspec

/-- The entries that a path addresses are, in document order, those whose full path it is: the
segments of the entries around them, as the cursor of a walk tells them, and then their own. How the
segments are spread over nested mappings, dotted keys and quoted keys makes no difference. -/
theorem findEntries_visited {source : String} {document : Node}
    (hparse : parseDocument source = .ok document) (path : KeyPath) :
    (visited document).map Prod.fst = document.preorder ∧
      findEntries document path =
        ((visited document).filter fun v =>
          v.1.kind == .yaml .entry && fullPath v.1 v.2 == path.parts).map Prod.fst := by
  have hshaped := shaped_of_parseDocument hparse
  obtain ⟨hnodes, hentries⟩ := visited_spec hshaped.kind
  refine ⟨hnodes, ?_⟩
  rw [findEntries_eq hshaped, ← hentries, spelling, entriesOf, List.filter_map, List.map_map,
    List.filter_filter]
  exact congrArg _ (List.filter_congr fun v _ => Bool.and_comm _ _)

/-- A dotted key, a nested one and two quoted ones are all found under one path, in their order, and
an entry whose key is the path in quotes is not. -/
theorem findEntries_visited_encodings :
    ∃ document, parseDocument "a.b: 1\na:\n  b: 2\n'a.b': 3\n\"a\":\n  c: 4\n  'b': 5\n" = .ok document ∧
      (visited document).map Prod.fst = document.preorder ∧
      findEntries document ⟨["a", "b"], by decide⟩ =
        ((visited document).filter fun v =>
          v.1.kind == .yaml .entry && fullPath v.1 v.2 == ["a", "b"]).map Prod.fst ∧
      (findEntries document ⟨["a", "b"], by decide⟩).map Node.print =
        ["a.b: 1", "\n  b: 2", "\n  'b': 5"] := by
  have hfound : (parseDocument "a.b: 1\na:\n  b: 2\n'a.b': 3\n\"a\":\n  c: 4\n  'b': 5\n").toOption.map
      (fun document => (findEntries document ⟨["a", "b"], by decide⟩).map Node.print) =
        some ["a.b: 1", "\n  b: 2", "\n  'b': 5"] := by decide +kernel
  cases hdocument : parseDocument "a.b: 1\na:\n  b: 2\n'a.b': 3\n\"a\":\n  c: 4\n  'b': 5\n" with
  | error e => rw [hdocument] at hfound; cases hfound
  | ok document =>
      rw [hdocument] at hfound
      obtain ⟨hnodes, hentries⟩ := findEntries_visited hdocument ⟨["a", "b"], by decide⟩
      exact ⟨document, rfl, hnodes, hentries, Option.some.inj hfound⟩

end Codemod.Yaml
