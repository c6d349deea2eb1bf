import Codemod.Proofs.Recipes.Carrying
import Codemod.Proofs.Recipes.Folding

/-!
Deletion behind folding. A folded entry cannot be addressed any more, as its key is part of a
longer one; every other entry is addressed as before. The main statement says which scalars the
deletion of a key leaves in a folded document, and when these are the ones that it leaves in the
document itself.
-/

namespace Codemod.Recipes.Folding

open Codemod.Tree Codemod.Yaml

/-- The segments that the keys on a chain of entries spell when the entries are folded, key by key.
The segments of folded entries are pending until the next entry that stays. -/
def foldedKeys (pending : List String) : List Node → List (List String)
  | [] => []
  | e :: rest =>
      if folds e then foldedKeys (pending ++ entrySegments e) rest
      else (pending ++ entrySegments e) :: foldedKeys [] rest

theorem foldedKeys_pending (pending : List String) (chain : List Node) :
    foldedKeys pending chain = (foldedKeys [] chain).modifyHead (pending ++ ·) := by
  induction chain generalizing pending with
  | nil => rfl
  | cons e rest ih =>
      rw [foldedKeys, foldedKeys]
      split_ifs
      · rw [ih, ih ([] ++ entrySegments e), List.modifyHead_modifyHead]
        congr 1
        funext key
        simp
      · simp

/-! ### The keys of a folded document -/

/-- A scalar behind the segments of the keys that lead to it. -/
abbrev KeyedLeaf :=
  List (List String) × String

/-- The scalars in a child behind the keys that lead to them. -/
def keyedLeaves (e : Element) : List KeyedLeaf :=
  (leafChainsElement [] e).map fun leaf => (leaf.1.map entrySegments, leaf.2)

/-- The scalars in a child behind the keys that will lead to them once the entries are folded. -/
def foldedLeaves (e : Element) : List KeyedLeaf :=
  (leafChainsElement [] e).map fun leaf => (foldedKeys [] leaf.1, leaf.2)

theorem entrySegments_dedent (shift : Nat) (n : Node) :
    entrySegments (dedent shift n) = entrySegments n := by
  simpa [keyPath] using
    @keyPath_congr [n] [dedent shift n] (by simp [keyText_dedent])

theorem keyedLeaves_dedent (shift : Nat) (n : Node) :
    keyedLeaves (.node (dedent shift n)) = keyedLeaves (.node n) := by
  have hchains := leafChains_dedent shift [] n
  rw [List.map_nil] at hchains
  rw [keyedLeaves, keyedLeaves, leafChainsElement, leafChainsElement, hchains, List.map_map]
  refine List.map_congr_left fun leaf _ => ?_
  simp [entrySegments_dedent]

section
variable {n value : Node} {key colon : Token} (hkind : n.kind = .yaml .entry)
  (hes : n.children = [.token key, .token colon, .node value]) (hkey : key.kind = .text)
include hkind hes

theorem leafChains_value :
    leafChains [] n = (leafChains [] value).map fun leaf => (n :: leaf.1, leaf.2) := by
  rw [leafChains_entry hkind hes, List.nil_append, ← List.append_nil [n], leafChains_eq_map]
  rfl

include hkey in
theorem keyedLeaves_entry : keyedLeaves (.node n) =
    (keyedLeaves (.node value)).map fun leaf => (keySegments key.text :: leaf.1, leaf.2) := by
  rw [keyedLeaves, keyedLeaves, leafChainsElement, leafChainsElement, leafChains_value hkind hes,
    List.map_map, List.map_map, ← entrySegments_entry hkind hes hkey]
  rfl

include hkey in
theorem foldedLeaves_entry : foldedLeaves (.node n) =
    (foldedLeaves (.node value)).map fun leaf =>
      (if folds n then leaf.1.modifyHead (keySegments key.text ++ ·)
        else keySegments key.text :: leaf.1, leaf.2) := by
  rw [foldedLeaves, foldedLeaves, leafChainsElement, leafChainsElement, leafChains_value hkind hes,
    List.map_map, List.map_map, ← entrySegments_entry hkind hes hkey]
  refine List.map_congr_left fun leaf _ => ?_
  simp only [Function.comp_apply, foldedKeys, List.nil_append]
  rw [foldedKeys_pending (entrySegments n)]

end

section
variable {n : Node} (hkind : n.kind ≠ .yaml .entry)
include hkind

theorem keyedLeaves_group : keyedLeaves (.node n) =
    match scalarText? n with
    | some raw => [([], raw)]
    | none => n.childNodes.flatMap fun c => keyedLeaves (.node c) := by
  obtain ⟨kind, lead, children, markers, type?⟩ := n
  rw [keyedLeaves, leafChainsElement, leafChains, if_neg hkind]
  cases scalarText? ⟨kind, lead, children, markers, type?⟩ with
  | some raw => rfl
  | none =>
      simp only [leafChainsList_eq, List.map_flatMap]
      rfl

theorem foldedLeaves_group : foldedLeaves (.node n) =
    match scalarText? n with
    | some raw => [([], raw)]
    | none => n.childNodes.flatMap fun c => foldedLeaves (.node c) := by
  obtain ⟨kind, lead, children, markers, type?⟩ := n
  rw [foldedLeaves, leafChainsElement, leafChains, if_neg hkind]
  cases scalarText? ⟨kind, lead, children, markers, type?⟩ with
  | some raw => rfl
  | none =>
      simp only [leafChainsList_eq, List.map_flatMap]
      rfl

end

theorem Joins.keyedLeaves {e e' value : Node} {key colon : Token} (h : Joins e e')
    (hes : e.children = [.token key, .token colon, .node value]) :
    keyedLeaves (.node e') = (keyedLeaves (.node value)).map fun leaf =>
      (leaf.1.modifyHead (keySegments key.text ++ ·), leaf.2) := by
  cases h with
  | @intro mapping inner innerValue key' colon' innerKey innerColon sign hkind hes' _ hmapping hinner
      hkind' hinner' hkey' _ htext hplain hplain' _ =>
      rw [hes] at hes'
      cases hes'
      have hlifted : Folding.keyedLeaves (.node (liftedValue e inner innerValue)) =
          Folding.keyedLeaves (.node innerValue) := by
        rcases liftedValue_cases e inner innerValue with hsame | ⟨shift, hdedent⟩
        · rw [hsame]
        · rw [hdedent, keyedLeaves_dedent]
      have hvalue : Folding.keyedLeaves (.node value) = Folding.keyedLeaves (.node inner) := by
        rw [keyedLeaves_group (by simp [hmapping]), scalarText_eq_none (by simp [hmapping]),
          Node.childNodes, hinner]
        simp [Element.node?]
      rw [@keyedLeaves_entry { e with children := _ } _ ⟨.text, "", _⟩ _ hkind rfl rfl, hlifted, hvalue,
        keyedLeaves_entry hkind' hinner' hkey', keySegments_join htext hplain hplain', List.map_map]
      rfl

theorem Coalesced.keyedLeaves {e e' : Element} (h : Coalesced e e') :
    keyedLeaves e' = foldedLeaves e := by
  induction h with
  | token t => rfl
  | @group n pairs hkind hes h ih =>
      obtain ⟨nodes, hfst, hsnd, hmem⟩ := coalesced_childNodes h
      have hlist : (nodes.flatMap fun q => Folding.keyedLeaves (.node q.2)) =
          nodes.flatMap fun q => foldedLeaves (.node q.1) := by
        refine List.flatMap_congr fun q hq => ?_
        obtain ⟨p, hp, rfl⟩ := hmem q hq
        exact ih _ hp
      rw [@keyedLeaves_group { n with children := pairs.map Prod.snd } hkind,
        foldedLeaves_group hkind, scalarText_group hes h, Node.childNodes, Node.childNodes, hes, hfst,
        hsnd, List.flatMap_map, List.flatMap_map, hlist]
  | @kept n value value' key colon hkind hes hkey hfolds _ ih =>
      rw [@keyedLeaves_entry { n with children := _ } _ _ _ hkind rfl hkey,
        foldedLeaves_entry hkind hes hkey, ih, hfolds]
      rfl
  | joined hkind hes hkey hfolds _ hjoins ih =>
      rw [hjoins.keyedLeaves rfl, foldedLeaves_entry hkind hes hkey, ih, hfolds]
      rfl

/-! ### Addresses -/

/-- The path ends with one of the keys. -/
def stops (path : List String) (keys : List (List String)) : Bool :=
  keys.inits.any fun front => front.flatten == path

/-- A chain leads to or below an entry that spells the path and is not one to fold. -/
def addresses (path : KeyPath) (chain : List Node) : Bool :=
  chain.inits.any fun front => keyPath front == path.parts && !front.getLast?.any folds

theorem exists_front_cons {α : Type} {P : List α → Prop} {a : α} {as : List α} :
    (∃ front, front ≠ [] ∧ front <+: a :: as ∧ P front) ↔
      P [a] ∨ ∃ front, front ≠ [] ∧ front <+: as ∧ P (a :: front) := by
  constructor
  · rintro ⟨front, hne, hfront, hP⟩
    obtain ⟨b, front, rfl⟩ := List.exists_cons_of_ne_nil hne
    obtain ⟨rfl, hrest⟩ := List.cons_prefix_cons.1 hfront
    cases front with
    | nil => exact .inl hP
    | cons c front => exact .inr ⟨c :: front, by simp, hrest, hP⟩
  · rintro (hP | ⟨front, _, hfront, hP⟩)
    · exact ⟨[a], by simp, by simp, hP⟩
    · exact ⟨a :: front, by simp, List.cons_prefix_cons.2 ⟨rfl, hfront⟩, hP⟩

theorem exists_front_foldedKeys {pending path : List String} {chain : List Node} :
    (∃ front, front ≠ [] ∧ front <+: foldedKeys pending chain ∧ front.flatten = path) ↔
      ∃ front, front ≠ [] ∧ front <+: chain ∧ pending ++ keyPath front = path ∧
        front.getLast?.any folds = false := by
  induction chain generalizing pending path with
  | nil => simp +contextual [foldedKeys]
  | cons e rest ih =>
      have hlast : ∀ front : List Node, front ≠ [] → (e :: front).getLast? = front.getLast? :=
        fun front hne => by rw [List.getLast?_cons, List.getLast?_eq_some_getLast hne]; rfl
      rw [exists_front_cons (a := e), foldedKeys]
      cases hfolds : folds e with
      | true =>
          rw [if_pos rfl, ih]
          constructor
          · rintro ⟨front, hne, hfront, hpath, hstays⟩
            refine .inr ⟨front, hne, hfront, ?_, by rwa [hlast front hne]⟩
            rw [← hpath, keyPath, keyPath, List.flatMap_cons, List.append_assoc]
          · rintro (⟨_, hstays⟩ | ⟨front, hne, hfront, hpath, hstays⟩)
            · simp [hfolds] at hstays
            · refine ⟨front, hne, hfront, ?_, by rwa [hlast front hne] at hstays⟩
              rw [← hpath, keyPath, keyPath, List.flatMap_cons, List.append_assoc]
      | false =>
          rw [if_neg (by simp), exists_front_cons]
          refine or_congr (by simp [keyPath, hfolds]) ?_
          constructor
          · rintro ⟨front, hne, hfront, rfl⟩
            obtain ⟨front', hne', hfront', hpath, hstays⟩ := ih.1 ⟨front, hne, hfront, rfl⟩
            refine ⟨front', hne', hfront', ?_, by rwa [hlast front' hne']⟩
            rw [List.flatten_cons, ← hpath, keyPath, keyPath, List.flatMap_cons]
            simp
          · rintro ⟨front, hne, hfront, rfl, hstays⟩
            rw [hlast front hne] at hstays
            obtain ⟨front', hne', hfront', hpath⟩ := ih.2 ⟨front, hne, hfront, rfl, hstays⟩
            refine ⟨front', hne', hfront', ?_⟩
            rw [List.flatten_cons, hpath, keyPath, keyPath, List.flatMap_cons]
            simp

theorem stops_foldedKeys (path : KeyPath) (chain : List Node) :
    stops path.parts (foldedKeys [] chain) = addresses path chain := by
  have hne : ∀ {β : Type} {P : List β → Prop} {bs : List β}, ¬ P [] →
      ((∃ front, front <+: bs ∧ P front) ↔ ∃ front, front ≠ [] ∧ front <+: bs ∧ P front) := by
    intro β P bs hnil
    refine exists_congr fun front => ⟨fun h => ⟨?_, h⟩, fun h => h.2⟩
    rintro rfl
    exact hnil h.2
  have hparts : [] ≠ path.parts := path.parts_ne_nil.symm
  rw [Bool.eq_iff_iff, stops, addresses, List.any_eq_true, List.any_eq_true]
  simp only [List.mem_inits, beq_iff_eq, Bool.and_eq_true, Bool.not_eq_true']
  rw [hne (by simpa using hparts), hne (by simp [keyPath, hparts]), exists_front_foldedKeys]
  rfl

/-! ### Deletion behind folding -/

theorem covers_eq_stops (path : KeyPath) (chain : List Node) :
    Deletion.Target.covers ⟨path, none⟩ chain = stops path.parts (chain.map entrySegments) := by
  rw [Bool.eq_iff_iff, Deletion.Target.covers_iff, stops, List.any_eq_true]
  constructor
  · rintro ⟨front, hfront, hselects⟩
    refine ⟨front.map entrySegments, (List.mem_inits _ _).2 (hfront.map _), ?_⟩
    rw [← Deletion.Target.keyPath_of_selects hselects, keyPath, List.flatMap_def]
    simp
  · rintro ⟨keys, hkeys, hpath⟩
    obtain ⟨front, hfront, rfl⟩ := List.prefix_map_iff.1 ((List.mem_inits _ _).1 hkeys)
    refine ⟨front, hfront, ?_⟩
    rw [Deletion.Target.selects, keyPath, List.flatMap_def]
    simpa using hpath

theorem left_eq_keyedLeaves (path : KeyPath) (d : Node) :
    (Deletion.Target.left ⟨path, none⟩ (leafChains [] d)).map leafView =
      ((keyedLeaves (.node d)).filter fun leaf => !stops path.parts leaf.1).map
        fun leaf => (leaf.1.flatten, leaf.2) := by
  rw [keyedLeaves, leafChainsElement, List.filter_map, List.map_map, Deletion.Target.left]
  have hfilter : (fun leaf : List Node × String => !Deletion.Target.covers ⟨path, none⟩ leaf.1) =
      (fun leaf : KeyedLeaf => !stops path.parts leaf.1) ∘
        fun leaf : List Node × String => (leaf.1.map entrySegments, leaf.2) := by
    funext leaf
    rw [covers_eq_stops]
    rfl
  rw [hfilter]
  refine List.map_congr_left fun leaf _ => ?_
  simp [leafView, keyPath, List.flatMap_def]

theorem left_coalesced (path : KeyPath) {d d' : Node} (h : Coalesced (.node d) (.node d')) :
    (Deletion.Target.left ⟨path, none⟩ (leafChains [] d')).map leafView =
      ((leafChains [] d).filter fun leaf => !addresses path leaf.1).map leafView := by
  -- The keys that are spelled stay the same with each scalar, as the scalars stay under their paths.
  have hviews : (leafChains [] d).map (fun leaf => ((foldedKeys [] leaf.1).flatten, leaf.2)) =
      (leafChains [] d).map leafView := by
    have hpaths : leafPaths (keyPath []) d' = leafPaths (keyPath []) d := h.leafPaths []
    rw [leafPaths_eq, leafPaths_eq] at hpaths
    rw [← hpaths]
    have hkeyed := congrArg (List.map fun leaf : KeyedLeaf => (leaf.1.flatten, leaf.2)) h.keyedLeaves
    rw [keyedLeaves, foldedLeaves, List.map_map, List.map_map] at hkeyed
    refine hkeyed.symm.trans (List.map_congr_left fun leaf _ => ?_)
    simp [leafView, keyPath, List.flatMap_def]
  rw [left_eq_keyedLeaves, h.keyedLeaves, foldedLeaves, leafChainsElement, List.filter_map,
    List.map_map]
  have hfilter : (fun leaf : KeyedLeaf => !stops path.parts leaf.1) ∘
      (fun leaf : List Node × String => (foldedKeys [] leaf.1, leaf.2)) =
        fun leaf => !addresses path leaf.1 := by
    funext leaf
    exact congrArg (!·) (stops_foldedKeys path leaf.1)
  rw [hfilter]
  refine List.map_congr_left fun leaf hleaf => ?_
  exact List.map_inj_left.1 hviews leaf (List.mem_of_mem_filter hleaf)

theorem leaves_folded {d : Node} (hd : DocumentShaped d) (hwritten : d.Everywhere Written) :
    leaves (folded d) = leaves d :=
  (walk_coalesced hd hwritten).leafPaths []

/-- What the recipe makes of a tree. -/
theorem deleteProperty_root {key : String} {path : KeyPath} (hpath : KeyPath.parse key = .ok path)
    (expected : Option Recipe.OptionValue) (coalesce : Option Bool) (d : Node) :
    ((deleteProperty (some key) expected coalesce).apply ⟨d, []⟩).root =
      if coalesce = some true then folded (Deletion.deleted ⟨path, expected⟩ d)
      else Deletion.deleted ⟨path, expected⟩ d := by
  have hplain : ∀ {coalesce : Option Bool}, coalesce ≠ some true →
      ((deleteProperty (some key) expected coalesce).apply ⟨d, []⟩).root =
        Deletion.deleted ⟨path, expected⟩ d := by
    intro coalesce h
    rw [Deletion.apply_eq hpath expected h, Deletion.deleted]
    cases ((Deletion.visitor ⟨path, expected⟩).walk d []).1 <;> rfl
  split_ifs with h
  · subst h
    rw [← @hplain none (by simp)]
    exact apply_eq ((deleteProperty (some key) expected none).apply ⟨d, []⟩)
  · exact hplain h

/-! ### One place on a chain for each path -/

theorem segments_of_leaf {around : List Node} {n : Node} (h : Shaped n) {leaf : List Node × String}
    (hleaf : leaf ∈ leafChains around n) : ∀ e ∈ leaf.1, e ∈ around ∨ entrySegments e ≠ [] := by
  induction h generalizing around with
  | scalar hkind hes =>
      rw [leafChains_scalar around hkind hes] at hleaf
      obtain rfl := List.mem_singleton.1 hleaf
      exact fun e he => .inl he
  | @entry n value key colon hkind hes hkey _ _ ih =>
      rw [leafChains_entry hkind hes] at hleaf
      intro e he
      rcases ih hleaf e he with h | h
      · rcases List.mem_append.1 h with h | h
        · exact .inl h
        · obtain rfl := List.mem_singleton.1 h
          rw [entrySegments_entry hkind hes hkey]
          exact .inr (keySegments_ne_nil _)
      · exact .inr h
  | mapping hkind _ _ _ ih =>
      rw [leafChains_inner (by simp [hkind]) (by simp [hkind])] at hleaf
      obtain ⟨c, hc, hleaf⟩ := mem_leafChainsList.1 hleaf
      exact ih c hc hleaf

theorem front_unique {chain front front' : List Node} (h : ∀ e ∈ chain, entrySegments e ≠ [])
    (hfront : front <+: chain) (hfront' : front' <+: chain) (hpath : keyPath front = keyPath front') :
    front = front' := by
  have hlonger : ∀ {xs ys : List Node}, xs <+: ys → ys <+: chain → keyPath xs = keyPath ys →
      xs = ys := by
    rintro xs _ ⟨rest, rfl⟩ hys hpath
    cases rest with
    | nil => rw [List.append_nil]
    | cons e rest =>
        rw [keyPath_append, List.self_eq_append_right, keyPath, List.flatMap_cons,
          List.append_eq_nil_iff] at hpath
        exact absurd hpath.1 (h e (hys.subset (by simp)))
  rcases List.prefix_or_prefix_of_prefix hfront hfront' with hle | hle
  · exact hlonger hle hfront' hpath
  · exact (hlonger hle hfront hpath.symm).symm

/-! ### The recipe -/

theorem document_chains {d : Node} (hd : DocumentShaped d) :
    entryChains [] d = [] ∨
      ∃ m, Shaped m ∧ leafChains [] d = leafChains [] m ∧ entryChains [] d = entryChains [] m := by
  obtain ⟨_, hleafChains, hentryChains⟩ := Deletion.document_content hd.kind
  rcases hd.childNodes with hnodes | ⟨m, hnodes, _, hm⟩
  · rw [hnodes] at hentryChains
    exact .inl hentryChains
  · rw [hnodes] at hleafChains hentryChains
    exact .inr ⟨m, hm, by simpa using hleafChains, by simpa using hentryChains⟩

theorem covers_of_folds {d : Node} (hd : DocumentShaped d) {path : KeyPath} {chain : List Node}
    (hchain : chain ∈ entryChains [] d) (hpath : keyPath chain = path.parts) {entry : Node}
    (hlast : chain.getLast? = some entry) (hfolds : folds entry = true) :
    ∃ leaf ∈ leafChains [] d, Deletion.Target.covers ⟨path, none⟩ leaf.1 = true ∧
      addresses path leaf.1 = false := by
  rcases document_chains hd with hnone | ⟨m, hm, hleafChains, hentryChains⟩
  · rw [hnone] at hchain
    cases hchain
  rw [hentryChains] at hchain
  obtain ⟨leaf, hleaf⟩ := List.exists_mem_of_ne_nil _ (leavesUnder_ne_nil hm hchain)
  have hmem := leavesUnder_subset hm hchain hleaf
  have hprefix : chain <+: leaf.1 := by
    rw [leavesUnder, hlast] at hleaf
    obtain ⟨c, _, hleaf⟩ := mem_leafChainsList.1 hleaf
    exact isPrefix_of_leaf hleaf
  refine ⟨leaf, by rwa [hleafChains], ?_, ?_⟩
  · refine Deletion.Target.covers_iff.2 ⟨chain, hprefix, ?_⟩
    simp [Deletion.Target.selects, hpath]
  · rw [addresses, List.any_eq_false]
    intro front hfront haddressed
    rw [Bool.and_eq_true, beq_iff_eq] at haddressed
    have hsegments : ∀ e ∈ leaf.1, entrySegments e ≠ [] := fun e he =>
      (segments_of_leaf hm hmem e he).resolve_left (by simp)
    obtain rfl := front_unique hsegments ((List.mem_inits _ _).1 hfront) hprefix
      (haddressed.1.trans hpath.symm)
    simp [hlast, hfolds] at haddressed

theorem covers_of_addresses {path : KeyPath} {chain : List Node} (h : addresses path chain = true) :
    Deletion.Target.covers ⟨path, none⟩ chain = true := by
  obtain ⟨front, hfront, haddressed⟩ := List.any_eq_true.1 h
  rw [Bool.and_eq_true, beq_iff_eq] at haddressed
  refine Deletion.Target.covers_iff.2 ⟨front, (List.mem_inits _ _).1 hfront, ?_⟩
  simp [Deletion.Target.selects, haddressed.1]

theorem leaves_deleteProperty {key : String} {path : KeyPath} (hpath : KeyPath.parse key = .ok path)
    (expected : Option Recipe.OptionValue) (coalesce : Option Bool) {d : Node}
    (hd : DocumentShaped d) (hwritten : d.Everywhere Written) :
    leaves ((deleteProperty (some key) expected coalesce).apply ⟨d, []⟩).root =
      (Deletion.Target.left ⟨path, expected⟩ (leafChains [] d)).map leafView := by
  have hdeleted : Deletion.Deleted _ d (Deletion.deleted ⟨path, expected⟩ d) _ :=
    Deletion.walk_deletes ⟨path, expected⟩ hd
  have hleft := hdeleted.leaves
  rw [deleteProperty_root hpath]
  split_ifs
  · rw [leaves_folded hdeleted.shaped (Deletion.walk_written _ hd hwritten), hleft]
  · exact hleft

/-- Deleting a key behind folding leaves the scalars that are not at or below an entry which spells
the key and was not folded into its inner one. It leaves the same scalars as in the document itself
exactly if no entry that spells the key is one to fold. -/
theorem deleteProperty_folded {source key : String} {d : Node} {path : KeyPath}
    (hdocument : parseDocument source = .ok d) (hpath : KeyPath.parse key = .ok path)
    (coalesce : Option Bool) :
    let recipe := deleteProperty (some key) none coalesce
    let flat := (coalesceProperties.apply ⟨d, []⟩).root
    leaves (recipe.apply ⟨flat, []⟩).root =
        ((leafChains [] d).filter fun leaf => !addresses path leaf.1).map leafView ∧
      (leaves (recipe.apply ⟨d, []⟩).root = leaves (recipe.apply ⟨flat, []⟩).root ↔
        ∀ chain ∈ entryChains [] d, keyPath chain = path.parts →
          ∀ entry, chain.getLast? = some entry → folds entry = false) := by
  intro recipe flat
  have hd := shaped_of_parseDocument hdocument
  have hwritten := written_of_parseDocument hdocument
  have hflat : Coalesced (.node d) (.node flat) := by
    rw [show flat = folded d from apply_eq ⟨d, []⟩]
    exact walk_coalesced hd hwritten
  obtain ⟨hshapedFlat, hwrittenFlat⟩ := hflat.document hd hwritten
  have hleft := leaves_deleteProperty hpath none coalesce hd hwritten
  have hleftFlat := (leaves_deleteProperty hpath none coalesce hshapedFlat hwrittenFlat).trans
    (left_coalesced path hflat)
  refine ⟨hleftFlat, ?_⟩
  rw [hleft, hleftFlat, Deletion.Target.left]
  constructor
  · -- Were such an entry one to fold, fewer scalars would be left in the document itself.
    intro hsame chain hchain hspells entry hlast
    by_contra hfolds
    obtain ⟨leaf, hleaf, hcovered, hstays⟩ :=
      covers_of_folds hd hchain hspells hlast (by simpa using hfolds)
    have hsublist : List.Sublist
        ((leafChains [] d).filter fun leaf => !Deletion.Target.covers ⟨path, none⟩ leaf.1)
        ((leafChains [] d).filter fun leaf => !addresses path leaf.1) := by
      refine List.monotone_filter_right _ fun leaf hleft => ?_
      rw [Bool.not_eq_true', ← Bool.not_eq_true] at hleft ⊢
      exact fun h => hleft (covers_of_addresses h)
    have hlength := congrArg List.length hsame
    rw [List.length_map, List.length_map] at hlength
    have hmem : leaf ∈ (leafChains [] d).filter fun leaf => !addresses path leaf.1 :=
      List.mem_filter.2 ⟨hleaf, by simp [hstays]⟩
    rw [← hsublist.eq_of_length hlength] at hmem
    simp [hcovered] at hmem
  · intro hstays
    congr 1
    refine List.filter_congr fun leaf hleaf => congrArg (!·) ?_
    rw [Bool.eq_iff_iff]
    refine ⟨fun hcovers => ?_, covers_of_addresses⟩
    obtain ⟨front, hfront, hselects⟩ := Deletion.Target.covers_iff.1 hcovers
    have hspells := Deletion.Target.keyPath_of_selects hselects
    have hentry : front ∈ entryChains [] d := by
      refine (prefix_of_leaf hleaf hfront).resolve_left fun hnil => ?_
      rw [List.prefix_nil.1 hnil] at hspells
      exact path.parts_ne_nil hspells.symm
    refine List.any_eq_true.2 ⟨front, (List.mem_inits _ _).2 hfront, ?_⟩
    have hlast : front.getLast?.any folds = false := by
      cases hlast : front.getLast? with
      | none => rfl
      | some entry => exact hstays front hentry hspells entry hlast
    simp [hspells, hlast]

/-- An entry below a folded one is addressed as before. -/
theorem deleteProperty_folded_below :
    let source := "a:\n  b:\n    c: 1\n    d: 2\ne: 3\n"
    let recipe := deleteProperty (some "a.b") none none
    ∃ d, parseDocument source = .ok d ∧
      leaves (recipe.apply ⟨d, []⟩).root = [(["e"], "3")] ∧
      leaves (recipe.apply ⟨(coalesceProperties.apply ⟨d, []⟩).root, []⟩).root = [(["e"], "3")] := by
  intro source recipe
  let path : KeyPath := ⟨["a", "b"], by simp⟩
  have hpath : KeyPath.parse "a.b" = .ok path := by decide +kernel
  have hleft : (parseDocument source).toOption.map (fun d =>
      (((leafChains [] d).filter fun leaf => !addresses path leaf.1).map leafView,
        (entryChains [] d).all fun chain =>
          keyPath chain != path.parts || !chain.getLast?.any folds)) =
        some ([(["e"], "3")], true) := by
    decide +kernel
  cases hdocument : parseDocument source with
  | error e =>
      rw [hdocument] at hleft
      cases hleft
  | ok d =>
      rw [hdocument] at hleft
      simp only [Except.toOption, Option.map_some, Option.some.injEq, Prod.mk.injEq,
        List.all_eq_true] at hleft
      obtain ⟨hfolded, hsame⟩ := deleteProperty_folded hdocument hpath none
      have hstays := hsame.2 fun chain hchain hspells entry hlast => by
        simpa [hspells, hlast] using hleft.2 chain hchain
      exact ⟨d, rfl, hstays.trans (hfolded.trans hleft.1), hfolded.trans hleft.1⟩

/-- An entry that is one to fold is addressed before folding only. -/
theorem deleteProperty_folded_differs :
    let source := "a:\n  b: 1\n"
    let recipe := deleteProperty (some "a") none none
    ∃ d, parseDocument source = .ok d ∧ leaves (recipe.apply ⟨d, []⟩).root = [] ∧
      leaves (recipe.apply ⟨(coalesceProperties.apply ⟨d, []⟩).root, []⟩).root =
        [(["a", "b"], "1")] := by
  intro source recipe
  have hruns : (parseDocument source).toOption.map (fun d =>
      (leaves (recipe.apply ⟨d, []⟩).root,
        leaves (recipe.apply ⟨(coalesceProperties.apply ⟨d, []⟩).root, []⟩).root)) =
        some ([], [(["a", "b"], "1")]) := by
    decide +kernel
  cases hdocument : parseDocument source with
  | error e =>
      rw [hdocument] at hruns
      cases hruns
  | ok d =>
      rw [hdocument] at hruns
      simp only [Except.toOption, Option.map_some, Option.some.injEq, Prod.mk.injEq] at hruns
      exact ⟨d, rfl, hruns⟩

end Codemod.Recipes.Folding
