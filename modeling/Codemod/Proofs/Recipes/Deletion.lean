import Codemod.Proofs.Recipes.Pruning

/-!
Deleting a property. The main statement says what is left of any document: the scalars that no
selected entry covers, in their order and under their paths, and the entries that hold them. No
mapping is left without entries, and a document without a selected entry stays as it is.
-/

namespace Codemod.Recipes.Deletion

open Codemod.Tree Codemod.Yaml

variable {target : Target}

/-! ### The document -/

section
variable {es : List Element} {n : Node}

theorem document_content (hkind : n.kind = .yaml .document) :
    leafPaths [] n = n.childNodes.flatMap (leafPaths []) ∧
      leafChains [] n = n.childNodes.flatMap (leafChains []) ∧
        entryChains [] n = n.childNodes.flatMap (entryChains []) := by
  have hentry : n.kind ≠ .yaml .entry := by simp [hkind]
  have hscalar : n.kind ≠ .yaml .scalar := by simp [hkind]
  rw [leafPaths_inner hentry hscalar, leafChains_inner hentry hscalar, entryChains_inner hentry,
    leafPathsList_eq, leafChainsList_eq, entryChainsList_eq]
  exact ⟨rfl, rfl, rfl⟩

end

theorem childNodes_isEmpty {n : Node} (honly : EntriesOnly n.children) :
    n.childNodes.isEmpty = n.children.isEmpty := by
  cases hes : n.children with
  | nil => simp [Node.childNodes, hes]
  | cons e es =>
      obtain ⟨c, rfl, _⟩ := honly e (by simp [hes])
      simp [Node.childNodes, hes, Element.node?]

/-- The documents that a deletion makes of one with a mapping: its other parts stay, but for the
trivia at the end, unless the mapping is emptied. -/
inductive Replaced (marker : List Element) (m' : Node) (last : Token) : List Element → Prop where
  | kept (lead : String) (h : m'.children ≠ []) :
      Replaced marker m' last (marker ++ [.node m'] ++ [.token { last with lead }])
  | emptied (lead : String) (h : m'.children = []) :
      Replaced marker m' last [.token { last with lead }]

section
variable {marker : List Element} {m' : Node} {last : Token}
  (hmarker : ∀ e ∈ marker, ∃ t : Token, e = .token t ∧ t.kind = .punct)
  (hkind : m'.kind = .yaml .mapping) (heof : last.kind = .eof)
include hmarker

theorem filterMap_marker : marker.filterMap Element.node? = [] := by
  refine List.filterMap_eq_nil_iff.2 fun e he => ?_
  obtain ⟨t, rfl, _⟩ := hmarker e he
  rfl

variable {v : Node} (hv : v.children = marker ++ [.node m'] ++ [.token last])
include hv

include hkind in
theorem positionOf_mapping : v.positionOf? (.yaml .mapping) = some marker.length := by
  have hnone : marker.findIdx? (fun e => e.node?.any fun c => c.kind == .yaml .mapping) = none := by
    refine List.findIdx?_eq_none_iff.2 fun e he => ?_
    obtain ⟨t, rfl, _⟩ := hmarker e he
    rfl
  rw [Node.positionOf?, hv, List.append_assoc, List.findIdx?_append, hnone]
  simp [Element.node?, hkind, List.findIdx?_cons]

include hkind in
theorem documentMapping_eq : documentMapping? v = some m' := by
  rw [documentMapping?, Node.firstChild?, Node.childNodes, hv, List.filterMap_append,
    List.filterMap_append, filterMap_marker hmarker]
  simp [Element.node?, hkind]

include heof in
theorem endIndex_eq :
    v.children.findIdx? (fun e => e.token?.any fun t => t.kind == .eof) =
      some (marker.length + 1) := by
  have hnone : marker.findIdx? (fun e => e.token?.any fun t => t.kind == .eof) = none := by
    refine List.findIdx?_eq_none_iff.2 fun e he => ?_
    obtain ⟨t, rfl, hpunct⟩ := hmarker e he
    simp [Element.token?, hpunct]
  rw [hv, List.append_assoc, List.findIdx?_append, hnone]
  simp [Element.token?, heof, List.findIdx?_cons, Nat.add_comm]

include hkind heof in
theorem document_eq (orphans : Orphans) :
    document v orphans = (orphans.at? [marker.length]).map fun carry =>
      if m'.childNodes.isEmpty then
        { v with children := [.token { last with lead := onlyComments (carry.onto last.lead) }] }
      else
        { v with children :=
            marker ++ [.node m'] ++ [.token { last with lead := carry.onto last.lead }] } := by
  have hlast : v.children[marker.length + 1]? = some (.token last) := by
    simp [hv]
  have hset : ∀ e, v.children.set (marker.length + 1) e = marker ++ [.node m'] ++ [e] := by
    intro e
    simp [hv]
  rw [document, positionOf_mapping hmarker hkind hv, documentMapping_eq hmarker hkind hv,
    endIndex_eq hmarker heof hv]
  simp only [Option.bind_eq_bind, Option.bind_some, hlast, Element.token?]
  cases orphans.at? [marker.length] with
  | none => rfl
  | some carry =>
      simp only [Option.bind_some, Option.map_some, Node.withChild, hset]
      split_ifs <;> rfl

include hkind heof in
theorem document_replaced {orphans : Orphans} (honly : EntriesOnly m'.children)
    (hempty : m'.children = [] → (orphans.at? [marker.length]).isSome = true) :
    ∃ es, (document v orphans).getD v = { v with children := es } ∧
      Replaced marker m' last es := by
  have hnodes := childNodes_isEmpty honly
  rw [document_eq hmarker hkind heof hv]
  cases horphan : orphans.at? [marker.length] with
  | none =>
      refine ⟨v.children, (eta_eq v).symm, ?_⟩
      rw [hv]
      refine .kept last.lead fun h => ?_
      rw [horphan] at hempty
      exact absurd (hempty h) (by simp)
  | some carry =>
      cases hes : m'.children with
      | nil =>
          refine ⟨_, ?_, .emptied (onlyComments (carry.onto last.lead)) hes⟩
          simp [hnodes, hes]
      | cons e es =>
          refine ⟨_, ?_, .kept (carry.onto last.lead) (by simp [hes])⟩
          simp [hnodes, hes]

end

/-! ### The walk -/

/-- Tokens are no places to visit. -/
theorem swept_tokens {R : Cursor → VisitRelation Orphans} {parent : Node} {cursor : Cursor}
    {index : Nat} {tokens es es' : List Element} {s s' : Orphans} {changed : Bool}
    (htokens : ∀ e ∈ tokens, ∃ t, e = .token t)
    (h : SweptAt R parent cursor index (tokens ++ es) s es' changed s') :
    ∃ rest, es' = tokens ++ rest ∧
      SweptAt R parent cursor (index + tokens.length) es s rest changed s' := by
  induction tokens generalizing index es' with
  | nil => exact ⟨es', rfl, h⟩
  | cons e tokens ih =>
      obtain ⟨t, rfl⟩ := htokens e List.mem_cons_self
      cases h with
      | token h =>
      obtain ⟨rest, rfl, hrest⟩ := ih (fun e he => htokens e (List.mem_cons_of_mem _ he)) h
      refine ⟨rest, rfl, ?_⟩
      rw [List.length_cons, Nat.add_comm tokens.length, ← Nat.add_assoc]
      exact hrest

/-- What a deletion leaves of a document. -/
structure Deleted (target : Target) (d d' : Node) (changed : Bool) : Prop where
  shaped : DocumentShaped d'
  leaves : Yaml.leaves d' = (target.left (leafChains [] d)).map leafView
  entries : (entryChains [] d').map (List.map keyText) =
    (target.holding (entryChains [] d)).map (List.map keyText)
  unselected : ∀ chain ∈ entryChains [] d', target.selects chain = false
  mappings : ∀ m ∈ d'.preorder, m.kind = .yaml .mapping → m.childNodes ≠ []
  changed_iff : changed = true ↔ ∃ chain ∈ entryChains [] d, target.selects chain = true

theorem covers_nil : target.covers [] = false :=
  Target.covers_of_continues Target.continues_nil

theorem deleted_empty {d : Node} (hd : DocumentShaped d) (hnodes : d.childNodes = []) :
    Deleted target d d false := by
  have hkind := hd.kind
  obtain ⟨hleaves, hleafChains, hentryChains⟩ := document_content hkind
  rw [hnodes] at hleaves hleafChains hentryChains
  refine ⟨hd, ?_, ?_, ?_, ?_, ?_⟩
  · rw [Yaml.leaves, hleaves, hleafChains]
    rfl
  · rw [hentryChains]
    rfl
  · rw [hentryChains]
    nofun
  · intro m hm hmapping
    rcases mem_preorder.1 hm with rfl | ⟨c, hc, _⟩
    · rw [hkind] at hmapping
      cases hmapping
    · rw [← mem_childNodes] at hc
      rw [Node.childNodes] at hnodes
      rw [hnodes] at hc
      cases hc
  · rw [hentryChains]
    simp

theorem deleted_replaced {d m m' : Node} {changed : Bool} {marker es : List Element} {last : Token}
    (hkind : d.kind = .yaml .document) (hnodes : d.childNodes = [m]) (hm : Shaped m)
    (hmapping : m.kind = .yaml .mapping)
    (hmarker : ∀ e ∈ marker, ∃ t : Token, e = .token t ∧ t.kind = .punct)
    (heof : last.kind = .eof) (hpruned : Pruned target [] m m' changed) (h : Replaced marker m' last es) :
    Deleted target d { d with children := es } changed := by
  obtain ⟨_, hleafChains, hentryChains⟩ := document_content hkind
  obtain ⟨d', hd'⟩ : ∃ d' : Node, d' = { d with children := es } := ⟨_, rfl⟩
  have hkind' : d'.kind = .yaml .document := by rw [hd']; exact hkind
  obtain ⟨hleaves', _, hentryChains'⟩ := document_content hkind'
  rw [hnodes] at hleafChains hentryChains
  simp only [List.flatMap_cons, List.flatMap_nil, List.append_nil] at hleafChains hentryChains
  rw [← hd']
  have hchildren : d'.children = es := by rw [hd']
  have hmapping' : m'.kind = .yaml .mapping := hpruned.kind.trans hmapping
  have hcontent : leafPaths [] m' = (target.left (leafChains [] m)).map leafView :=
    hpruned.content.leaves
  cases h with
  | kept lead hne =>
      have hnodes' : d'.childNodes = [m'] := by
        rw [Node.childNodes, hchildren, List.filterMap_append, List.filterMap_append,
          filterMap_marker hmarker]
        rfl
      rw [hnodes'] at hleaves' hentryChains'
      simp only [List.flatMap_cons, List.flatMap_nil, List.append_nil] at hleaves' hentryChains'
      have hshaped : Shaped m' := hpruned.shaped fun hnil => hne (hpruned.emptied hnil).2
      refine ⟨⟨hkind', marker, [.node m'], { last with lead }, hchildren, heof, hmarker,
        .inr ⟨m', rfl, hmapping', hshaped⟩⟩, ?_, ?_, ?_, ?_, ?_⟩
      · rw [Yaml.leaves, hleaves', hleafChains, hcontent]
      · rw [hentryChains', hentryChains]
        exact hpruned.content.entries [] rfl
      · rw [hentryChains']
        exact hpruned.content.unselected [] rfl
      · intro n hn hnode
        rcases mem_preorder.1 hn with rfl | ⟨c, hc, hnc⟩
        · rw [hkind'] at hnode
          cases hnode
        · rw [← mem_childNodes, ← Node.childNodes, hnodes'] at hc
          obtain rfl := List.mem_singleton.1 hc
          exact childNodes_ne_nil hshaped hnc hnode
      · rw [hentryChains]
        exact hpruned.changed_iff
  | emptied lead hnil =>
      have hnodes' : d'.childNodes = [] := by
        rw [Node.childNodes, hchildren]
        rfl
      rw [hnodes'] at hleaves' hentryChains'
      have hleft : target.left (leafChains [] m) = [] := by
        rw [leafPaths_inner (by simp [hmapping']) (by simp [hmapping']), hnil] at hcontent
        exact List.map_eq_nil_iff.1 hcontent.symm
      refine ⟨⟨hkind', [], [], { last with lead }, hchildren, heof, List.forall_mem_nil _,
        .inl rfl⟩, ?_, ?_, ?_, ?_, ?_⟩
      · rw [Yaml.leaves, hleaves', hleafChains, hleft]
        rfl
      · rw [hentryChains', hentryChains, Target.holding_eq_nil hm hleft]
        rfl
      · rw [hentryChains']
        exact List.forall_mem_nil _
      · intro n hn hnode
        rcases mem_preorder.1 hn with rfl | ⟨c, hc, hnc⟩
        · rw [hkind'] at hnode
          cases hnode
        · rw [← mem_childNodes, ← Node.childNodes, hnodes'] at hc
          cases hc
      · rw [hentryChains]
        exact hpruned.changed_iff

/-- Where nothing was left, the end of a document takes nothing over. -/
theorem document_none (v : Node) : document v [] = none := by
  rw [document]
  cases v.positionOf? (.yaml .mapping) with
  | none => rfl
  | some i =>
      cases documentMapping? v with
      | none => rfl
      | some m => rfl

theorem document_deletes {target : Target} {d m m' : Node} {marker : List Element} {last : Token}
    {changed : Bool} {s : Orphans} (hkind : d.kind = .yaml .document)
    (hes : d.children = marker ++ [.node m] ++ [.token last]) (heof : last.kind = .eof)
    (hmarker : ∀ e ∈ marker, ∃ t : Token, e = .token t ∧ t.kind = .punct)
    (hmapping : m.kind = .yaml .mapping) (hm : Shaped m)
    (h : VisitedAt target [⟨d, marker.length⟩] m [] m' changed s) :
    let v : Node := { d with children := marker ++ [.node m'] ++ [.token last] }
    Deleted target d ((document v s).getD v) (changed || (document v s).isSome) := by
  intro v
  have haround : chainAt [⟨d, marker.length⟩] = [] := by simp [chainAt, Cursor.ancestors, hkind]
  have hpruned : Pruned target [] m m' changed := haround ▸ h.value (.inr hmapping)
    (by rw [haround]; exact covers_nil)
  have hmapping' : m'.kind = .yaml .mapping := hpruned.kind.trans hmapping
  have honly : EntriesOnly m'.children := by
    by_cases hnil : target.left (leafChains [] m) = []
    · rw [(hpruned.emptied hnil).2]
      exact List.forall_mem_nil _
    · exact (mapping_of_shaped (hpruned.shaped hnil) (mem_preorder_self _) hmapping').2
  obtain ⟨es, hreplaced, hshape⟩ := document_replaced (v := v) hmarker hmapping' heof rfl honly
    (h.emptied hmapping haround)
  have hchanged : (changed || (document v s).isSome) = changed := by
    obtain ⟨new, rfl, _, hidle⟩ := h.orphans
    cases changed with
    | true => rfl
    | false => rw [hidle rfl, List.append_nil, document_none]; rfl
  have hnodes : d.childNodes = [m] := by
    rw [Node.childNodes, hes, List.filterMap_append, List.filterMap_append,
      filterMap_marker hmarker]
    rfl
  rw [hreplaced, hchanged]
  exact deleted_replaced hkind hnodes hm hmapping hmarker heof hpruned hshape

/-- A walk sweeps the children of a document and then leaves the document. -/
theorem walk_document {target : Target} {R : Cursor → VisitRelation Orphans}
    (hleave : (visitor target).LeavesAt R) {d : Node} (hkind : d.kind = .yaml .document) :
    ∃ es' below s, SweptAt R d [] 0 d.children [] es' below s ∧
      let v : Node := { d with children := es' }
      ((visitor target).walk d []).1.getD d = (document v s).getD v ∧
        ((visitor target).walk d []).1.isSome = (below || (document v s).isSome) := by
  have haccepts : (visitor target).accepts d = true := by
    show (d.kind == .yaml .document) = true
    simp [hkind]
  obtain ⟨_, es', below, s, hswept, hresult, hchanged, _⟩ :=
    Visitor.walk_leftAt (fun _ _ _ => rfl) hleave haccepts []
  have hleft : (visitor target).leave { d with children := es' } [] s =
      (document { d with children := es' } s, s) := by
    show Hooks.leave _ _ [] s = _
    rw [Hooks.leave]
    simp only [hkind]
  rw [hleft] at hresult hchanged
  exact ⟨es', below, s, hswept, hresult, hchanged⟩

/-- What a walk leaves of a document. -/
theorem walk_deletes (target : Target) {d : Node} (hd : DocumentShaped d) :
    Deleted target d (((visitor target).walk d []).1.getD d)
      ((visitor target).walk d []).1.isSome := by
  obtain ⟨hkind, marker, mapping, last, hes, heof, hmarker, hmapping⟩ := id hd
  obtain ⟨es', below, s, hswept, hresult, hchanged⟩ :=
    walk_document (leaves_visiting target) hkind
  rw [hes, List.append_assoc] at hswept
  obtain ⟨rest, rfl, hrest⟩ := swept_tokens (fun e he => by
    obtain ⟨t, ht, _⟩ := hmarker e he
    exact ⟨t, ht⟩) hswept
  rw [Nat.zero_add] at hrest
  rw [hresult, hchanged]
  obtain rfl | ⟨m, rfl, hm, hshaped⟩ := hmapping
  · -- Without a mapping nothing is left to the end of the document.
    cases hrest with
    | token h =>
    cases h
    have hnodes : d.childNodes = [] := by
      rw [Node.childNodes, hes, List.append_nil, List.filterMap_append, filterMap_marker hmarker]
      rfl
    have hsame : d.children = marker ++ [.token last] := by rw [hes, List.append_nil]
    rw [document_none, ← hsame, eta_eq]
    exact deleted_empty hd hnodes
  · cases hrest with
    | @node _ _ m' _ _ _ _ _ changed _ hn h =>
    cases h with
    | token h =>
    cases h
    rw [Bool.or_false]
    have hvisited := hn hshaped (List.forall_mem_nil _)
    have hdeleted := document_deletes hkind hes heof hmarker hm hshaped hvisited
    rwa [List.append_assoc] at hdeleted

/-! ### The recipe -/

/-- One application of the recipe without folding behind it. -/
theorem apply_eq {key : String} {path : KeyPath} (hpath : KeyPath.parse key = .ok path)
    (expected : Option Recipe.OptionValue) {coalesce : Option Bool} (h : coalesce ≠ some true)
    (d : Node) :
    (deleteProperty (some key) expected coalesce).apply ⟨d, []⟩ =
      match ((visitor ⟨path, expected⟩).walk d []).1 with
      | some changed => ⟨changed, ["DeleteProperty"]⟩
      | none => ⟨d, []⟩ := by
  have htarget : target? (some key) expected = some ⟨path, expected⟩ := by
    simp [target?, hpath, Except.toOption]
  have hfold : coalesce.getD false = false := by
    rcases coalesce with _ | _ | _
    · rfl
    · rfl
    · exact absurd rfl h
  rw [deleteProperty, hfold, Recipe.apply, if_neg (by simp), Recipe.applyAll, Recipe.applyOwn,
    htarget]
  rfl

/-- Of a document exactly those scalars are left that no selected entry covers, in their order,
each under its path, and those entries that hold one of them. None of the entries is selected, no
mapping is without entries, and the document stays exactly if none of its entries is selected. -/
theorem deleteProperty_deletes {source key : String} {d : Node} {path : KeyPath}
    (hdocument : parseDocument source = .ok d) (hpath : KeyPath.parse key = .ok path)
    (expected : Option Recipe.OptionValue) {coalesce : Option Bool} (h : coalesce ≠ some true) :
    let target : Target := ⟨path, expected⟩
    let result := (deleteProperty (some key) expected coalesce).apply ⟨d, []⟩
    leaves d = (leafChains [] d).map leafView ∧
      leaves result.root = (target.left (leafChains [] d)).map leafView ∧
      (entryChains [] result.root).map (List.map keyText) =
        (target.holding (entryChains [] d)).map (List.map keyText) ∧
      (∀ chain ∈ entryChains [] result.root, target.selects chain = false) ∧
      (∀ m ∈ result.root.preorder, m.kind = .yaml .mapping → m.childNodes ≠ []) ∧
      (result = ⟨d, []⟩ ↔ ∀ chain ∈ entryChains [] d, target.selects chain = false) := by
  intro target result
  have hdeleted := walk_deletes target (shaped_of_parseDocument hdocument)
  have hresult : result = _ := apply_eq hpath expected h d
  have hroot : result.root = ((visitor target).walk d []).1.getD d := by
    rw [hresult]
    cases ((visitor target).walk d []).1 <;> rfl
  have hsame : result = ⟨d, []⟩ ↔ ¬ ((visitor target).walk d []).1.isSome = true := by
    rw [hresult]
    cases ((visitor target).walk d []).1 <;> simp
  rw [hroot]
  refine ⟨leafPaths_eq [] d, hdeleted.leaves, hdeleted.entries, hdeleted.unselected,
    hdeleted.mappings, ?_⟩
  rw [hsame, hdeleted.changed_iff]
  simp

/-- An entry goes with the mappings it empties, its twin with another value stays. -/
theorem deleteProperty_deletes_nested :
    let source := "a:\n  b: # n\n    c: 1\n  d: 2\n'a.b': x\na.b.c: 1\na.b:\n  c: 2\n"
    let target : Target := ⟨⟨["a", "b", "c"], by simp⟩, some (.number 1)⟩
    let recipe := deleteProperty (some "a.b.c") (some (.number 1)) none
    ∃ d, parseDocument source = .ok d ∧ recipe.apply ⟨d, []⟩ ≠ ⟨d, []⟩ ∧
      leaves (recipe.apply ⟨d, []⟩).root =
        [(["a", "d"], "2"), (["a.b"], "x"), (["a", "b", "c"], "2")] ∧
      ∀ chain ∈ entryChains [] (recipe.apply ⟨d, []⟩).root, target.selects chain = false := by
  intro source target recipe
  have hleft : (parseDocument source).toOption.map
      (fun d => ((target.left (leafChains [] d)).map leafView,
        (entryChains [] d).any target.selects)) =
        some ([(["a", "d"], "2"), (["a.b"], "x"), (["a", "b", "c"], "2")], true) := by
    decide +kernel
  have hpath : KeyPath.parse "a.b.c" = .ok target.path := by decide +kernel
  cases hdocument : parseDocument source with
  | error e =>
      rw [hdocument] at hleft
      cases hleft
  | ok d =>
      obtain ⟨_, hleaves, _, hnone, _, hsame⟩ :=
        deleteProperty_deletes hdocument hpath (some (.number 1)) (show none ≠ some true by simp)
      rw [hdocument] at hleft
      simp only [Except.toOption, Option.map_some, Option.some.injEq, Prod.mk.injEq,
        List.any_eq_true] at hleft
      obtain ⟨hleft, chain, hchain, hselects⟩ := hleft
      refine ⟨d, rfl, fun hstays => ?_, hleaves.trans hleft, hnone⟩
      have hunselected := hsame.1 hstays chain hchain
      exact absurd hselects (by simpa using hunselected)

end Codemod.Recipes.Deletion
