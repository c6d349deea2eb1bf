import Codemod.Proofs.Recipes.Stitching

/-!
A document behind a deletion is laid out, so its text is read back as the same tree. The layout is
kept by the visit of each node: an entry is handed on with its value, a mapping is put together
again from the entries that stay.
-/

namespace Codemod.Recipes.Deletion

open Codemod.Tree Codemod.Yaml

variable {target : Target}

/-! ### Visits -/

/-- What a visit makes of a node is laid out as the node is, up to what was left there. -/
structure Stitched (cursor : Cursor) (n : Node) (s : Orphans) (n' : Node) (s' : Orphans) :
    Prop where
  scalar : n.kind = .yaml .scalar → n' = n ∧ s' = s
  entry : n.kind = .yaml .entry → Mended (s'.at? (cursor.path ++ [2])) n n'
  mapping : n.kind = .yaml .mapping → n' = { n with children := n'.children }
  kept : n.kind = .yaml .mapping → n'.children ≠ [] → ∀ {front last : Edge} {column : Nat},
    Laid front column n.children last →
      ∃ last', Laid front column n'.children last' ∧ Passed (s'.at? cursor.path) last last'
  emptied : n.kind = .yaml .mapping → n'.children = [] → chainAt cursor = [] →
    ∀ {front last : Edge} {column : Nat}, Laid front column n.children last →
      ∃ lines, s'.at? cursor.path = some (.leading lines) ∧ LinesAt front lines

/-- The relation of visits that keep the layout. -/
def Stitching (target : Target) (cursor : Cursor) : VisitRelation Orphans :=
  fun n s n' changed s' => Shaped n → Fresh cursor.path s →
    VisitedAt target cursor n s n' changed s' ∧ Stitched cursor n s n' s'

theorem visiting_of_stitching {target : Target} {cursor : Cursor} {n n' : Node} {s s' : Orphans}
    {changed : Bool} (h : Stitching target cursor n s n' changed s') :
    Visiting target cursor n s n' changed s' :=
  fun hn hfresh => (h hn hfresh).1

theorem at_of_fresh {path : List Nat} {s : Orphans} (hs : Fresh path s) (rest : List Nat) :
    s.at? (path ++ rest) = none := by
  by_contra hfound
  obtain ⟨o, ho, hpath⟩ := mem_of_at (Option.isSome_iff_ne_none.2 hfound)
  refine hs o ho ?_
  rw [hpath]
  exact List.prefix_append path rest

theorem at_append_of_ne {path : List Nat} {new s : Orphans} (hnew : ∀ o ∈ new, o.1 ≠ path) :
    Orphans.at? (new ++ s) path = s.at? path := by
  have hnone : new.find? (fun o => o.1 == path) = none :=
    List.find?_eq_none.2 fun o ho => by simpa using hnew o ho
  rw [Orphans.at?, List.find?_append, hnone]
  rfl

/-- What holds of each entry with what was left behind its visit holds with all that is left behind
the visits of its mapping. -/
theorem eachEntry_of_swept {R : Cursor → VisitRelation Orphans}
    {M : Option Carry → Node → Node → Prop} {parent : Node} {cursor : Cursor} {index : Nat}
    {es es' : List Element} {s s' : Orphans} {below : Bool}
    (hR : ∀ {cursor n s n' changed s'}, R cursor n s n' changed s' →
      Visiting target cursor n s n' changed s')
    (hM : ∀ {index n s n' changed s'}, R (⟨parent, index⟩ :: cursor) n s n' changed s' →
      Shaped n → Fresh (cursor.path ++ [index]) s → n.kind = .yaml .entry →
        M (s'.at? (cursor.path ++ [index, 2])) n n')
    (hparent : parent.kind = .yaml .mapping)
    (honly : EntriesOnly es) (hshaped : ∀ c, Element.node c ∈ es → Shaped c)
    (h : SweptAt R parent cursor index es s es' below s')
    (hlive : target.path.continues (keyPath (chainAt cursor)) = true)
    (hfresh : ∀ i, index ≤ i → Fresh (cursor.path ++ [i]) s) :
    EachEntry M s' cursor.path index es es' := by
  induction h with
  | nil => exact .nil
  | token =>
      obtain ⟨_, ⟨⟩, _⟩ := honly _ List.mem_cons_self
  | @node index e e' es es' s s₁ s' changed others hn h ih =>
      obtain ⟨_, ⟨⟩, hkind⟩ := honly _ List.mem_cons_self
      have honly := fun c hc => honly c (List.mem_cons_of_mem _ hc)
      have hrest := fun c hc => hshaped c (List.mem_cons_of_mem _ hc)
      have he := hshaped e List.mem_cons_self
      have hfreshEntry := hfresh index (Nat.le_refl _)
      have hmade := hM hn he hfreshEntry hkind
      obtain ⟨new, rfl, hnew, _⟩ := (hR hn he (by rwa [path_cons])).orphans
      rw [path_cons] at hnew
      have hfresh' : ∀ i, index + 1 ≤ i → Fresh (cursor.path ++ [i]) (new ++ s) := fun i hi =>
        (hfresh i (by omega)).behind hi hnew
      obtain ⟨⟨later, rfl, hlater, _⟩, _⟩ := visitedAll_of_swept hparent honly hrest
        (h.imp fun _ _ _ _ _ _ => hR) hlive hfresh'
      refine .cons ?_ (ih honly hrest hfresh')
      rw [at_append_of_ne fun o ho hpath => ?_]
      · exact hmade
      · obtain ⟨i, hi, hstarts⟩ := hlater o ho
        rw [hpath] at hstarts
        exact not_prefix_of_lt cursor.path hi _ hstarts

theorem mendedAll_of_swept {parent : Node} {cursor : Cursor} {index : Nat} {es es' : List Element}
    {s s' : Orphans} {below : Bool} (hparent : parent.kind = .yaml .mapping)
    (honly : EntriesOnly es) (hshaped : ∀ c, Element.node c ∈ es → Shaped c)
    (h : SweptAt (Stitching target) parent cursor index es s es' below s')
    (hlive : target.path.continues (keyPath (chainAt cursor)) = true)
    (hfresh : ∀ i, index ≤ i → Fresh (cursor.path ++ [i]) s) :
    EachEntry Mended s' cursor.path index es es' := by
  refine eachEntry_of_swept visiting_of_stitching (fun hn he hfreshEntry hkind => ?_) hparent honly
    hshaped h hlive hfresh
  rw [← path_cons parent] at hfreshEntry
  have hmended := (hn he hfreshEntry).2.entry hkind
  rwa [path_cons, List.append_assoc] at hmended

theorem entry_stitches {n value value' : Node} {key colon : Token} {cursor : Cursor}
    {s s' : Orphans}
    (hes : n.children = [.token key, .token colon, .node value]) (hfresh : Fresh cursor.path s)
    (h : Stitched (⟨n, 2⟩ :: cursor) value s value' s') :
    Mended (s'.at? (cursor.path ++ [2])) n
      { n with children := [.token key, .token colon, .node value'] } := by
  refine ⟨rfl, fun {column last} hentry hshaped => ?_⟩
  cases hentry with
  | scalar hkey hvalue =>
      simp only [entryNode, List.cons.injEq, Element.token.injEq, Element.node.injEq, and_true] at hes
      obtain ⟨rfl, rfl, rfl⟩ := hes
      have hscalar := hvalue.kind
      obtain ⟨rfl, rfl⟩ := h.scalar hscalar
      refine ⟨last, .scalar hkey hvalue, ?_⟩
      rw [at_of_fresh hfresh [2]]
      rfl
  | @nested _ below lead raw gap children hkey hdeeper hne hchildren =>
      simp only [entryNode, List.cons.injEq, Element.token.injEq, Element.node.injEq, and_true] at hes
      obtain ⟨rfl, rfl, rfl⟩ := hes
      have hvalue' : value' = mappingNode value'.children := h.mapping rfl
      have hne' : value'.children ≠ [] := by
        have hinner := hshaped.child (c := value') (by simp)
        refine (mapping_of_shaped hinner (mem_preorder_self _) ?_).1
        rw [hvalue']
        rfl
      obtain ⟨last', hlaid, hpassed⟩ := h.kept rfl hne' hchildren
      rw [path_cons] at hpassed
      refine ⟨last', ?_, hpassed⟩
      rw [hvalue']
      exact .nested hkey hdeeper hne' hlaid

theorem at_left {enclosing : List String} {carry? : Option Carry} {path : List Nat} {s : Orphans}
    (hs : s.at? path = none) :
    Orphans.at? (((leftBehind enclosing carry?).toList.map fun c => (path, c)) ++ s) path =
      leftBehind enclosing carry? := by
  cases leftBehind enclosing carry? with
  | none => exact hs
  | some carry => simp [Orphans.at?]

theorem stitched_kept {n : Node} {cursor : Cursor} {s s' : Orphans} {p : Progress}
    (hkind : n.kind = .yaml .mapping)
    (hlaid : ∀ {front last : Edge} {column : Nat}, Laid front column n.children last →
      p.Laid front column last)
    (hempty : p.kept = [] → ∃ lines, p.carry? = some (.leading lines))
    (hat : s'.at? cursor.path = leftBehind (keyPath (chainAt cursor)) p.carry?) :
    Stitched cursor n s { n with children := p.kept } s' := by
  refine ⟨by simp [hkind], by simp [hkind], fun _ => rfl, fun _ hne front last column hes => ?_,
    fun _ hnil hroot front last column hes => ?_⟩
  · rw [hat]
    cases hlaid hes with
    | first hkept => exact absurd hkept hne
    | @later last' h hpassed =>
        refine ⟨last', h, ?_⟩
        rcases hcarry : p.carry? with _ | lines | comment
        · rwa [hcarry] at hpassed
        · rw [hcarry] at hpassed
          exact hpassed.elim
        · rwa [hcarry] at hpassed
  · have hroot' : keyPath (chainAt cursor) = [] := by rw [hroot]; rfl
    obtain ⟨lines, hlines⟩ := hempty hnil
    rw [hat, hroot', hlines]
    cases hlaid hes with
    | first _ hcarry h =>
        rw [hlines] at hcarry
        cases hcarry
        exact ⟨lines, rfl, h⟩
    | later _ hpassed =>
        rw [hlines] at hpassed
        exact hpassed.elim

section
variable {n : Node} {cursor : Cursor} {s s' : Orphans} {es' : List Element} {below : Bool}
  (hkind : n.kind = .yaml .mapping) (hn : Shaped n) (hfresh : Fresh cursor.path s)
  (h : SweptAt (Stitching target) n cursor 0 n.children s es' below s')
include hkind hn hfresh h

theorem stitched_dead (hdead : target.path.continues (keyPath (chainAt cursor)) = false) :
    Stitched cursor n s { n with children := es' } s' := by
  obtain ⟨hne, honly, hshaped⟩ := mapping_children hkind hn
  obtain ⟨rfl, rfl, rfl⟩ := same_of_swept hkind honly hshaped
    (h.imp fun _ _ _ _ _ _ => visiting_of_stitching) hdead fun i _ => hfresh.below [i]
  have hat : s'.at? cursor.path = none := by simpa using at_of_fresh hfresh []
  refine ⟨?_, ?_, fun _ => rfl, fun _ _ _ last _ hlaid => ⟨last, hlaid, ?_⟩,
    fun _ hempty => absurd hempty hne⟩
  · simp [hkind]
  · simp [hkind]
  · rw [hat]
    rfl

theorem mapping_stitches :
    let v : Node := { n with children := es' }
    let left := mapping target v cursor s'
    Stitched cursor n s (left.1.getD v) left.2 := by
  intro v left
  cases hlive : target.path.continues (keyPath (chainAt cursor)) with
  | false =>
      have hleft : left = (none, s') := mapping_dead hlive
      rw [hleft]
      exact stitched_dead hkind hn hfresh h hlive
  | true =>
      obtain ⟨hne, honly, hshaped⟩ := mapping_children hkind hn
      have hfresh' : ∀ i, 0 ≤ i → Fresh (cursor.path ++ [i]) s := fun i _ => hfresh.below [i]
      obtain ⟨⟨later, hlater, hstarts, _⟩, hall⟩ := visitedAll_of_swept hkind honly hshaped
        (h.imp fun _ _ _ _ _ _ => visiting_of_stitching) hlive hfresh'
      have hmended := mendedAll_of_swept hkind honly hshaped h hlive hfresh'
      have hleft : left = _ := mapping_live hlive
      obtain ⟨p, hp⟩ : ∃ p, sweep target (keyPath (chainAt cursor)) s' cursor.path 0 {} es' = p :=
        ⟨_, rfl⟩
      rw [hp] at hleft
      have hlaid : ∀ {front last : Edge} {column : Nat}, Laid front column n.children last →
          p.Laid front column last := fun {front last column} hes => by
        rw [← hp]
        exact sweep_laid hlive hall hmended
          (.later (p := {}) .nil rfl (fun h => absurd rfl h) fun h => absurd rfl h) hes
      have hempty : p.kept = [] → ∃ lines, p.carry? = some (.leading lines) := fun hnil => by
        rw [← hp] at hnil ⊢
        exact sweep_leading (p := {}) (.inr ⟨rfl, hall.ne_nil hne⟩) hnil
      have hat : s'.at? cursor.path = none := by
        rw [hlater, at_append_of_ne fun o ho hpath => ?_]
        · simpa using at_of_fresh hfresh []
        · obtain ⟨i, _, hi⟩ := hstarts o ho
          have hlength := hi.length_le
          rw [hpath, List.length_append, List.length_singleton] at hlength
          omega
      cases hchanged : p.changed with
      | true =>
          rw [hchanged, if_pos rfl] at hleft
          rw [hleft]
          exact stitched_kept hkind hlaid hempty (at_left hat)
      | false =>
          have hkept : p.kept = es' := by
            rw [← hp, sweep_unchanged hlive hall rfl (hp ▸ hchanged)]
            rfl
          have hcarry : p.carry? = none := by
            rw [← hp]
            exact sweep_idle (fun _ => rfl) (hp ▸ hchanged)
          rw [hchanged, if_neg (by simp)] at hleft
          rw [hleft]
          show Stitched cursor n s { n with children := es' } s'
          rw [← hkept]
          exact stitched_kept hkind hlaid hempty (by rw [hat, hcarry]; rfl)

end

theorem leaves_stitching (target : Target) : (visitor target).LeavesAt (Stitching target) := by
  intro n cursor s s' es' changed hswept v left hn hfresh
  refine ⟨leaves_visiting target (hswept.imp fun _ _ _ _ _ _ => visiting_of_stitching) hn hfresh, ?_⟩
  cases id hn with
  | @scalar _ t hkind hes =>
      have hleft : left = (none, s') :=
        leave_inner (n := v) (by simp [v, hkind]) (by simp [v, hkind])
      rw [hes] at hswept
      cases hswept with
      | token h =>
      cases h
      rw [hleft]
      show Stitched cursor n s ⟨n.kind, n.lead, [.token t], n.markers, n.type?⟩ s
      rw [← hes, eta_eq]
      exact ⟨fun _ => ⟨rfl, rfl⟩, by simp [hkind], by simp [hkind], by simp [hkind], by simp [hkind]⟩
  | @entry _ value key colon hkind hes hkey hisValue hvalue =>
      have hleft : left = (none, s') :=
        leave_inner (n := v) (by simp [v, hkind]) (by simp [v, hkind])
      rw [hleft]
      rw [hes] at hswept
      cases hswept with
      | token h =>
      cases h with
      | token h =>
      cases h with
      | @node _ _ value' _ _ _ _ _ _ _ hn h =>
      cases h
      obtain ⟨_, hstitched⟩ := hn hvalue (by
        rw [path_cons]
        exact hfresh.below [2])
      exact ⟨by simp [hkind], fun _ => entry_stitches hes hfresh hstitched, by simp [hkind],
        by simp [hkind], by simp [hkind]⟩
  | mapping hkind hne honly h =>
      have hleft : left = mapping target v cursor s' := leave_mapping hkind
      rw [hleft]
      exact mapping_stitches hkind hn hfresh hswept

/-! ### The document -/

theorem entriesOnly_of_laid {front last : Edge} {column : Nat} {es : List Element}
    (h : Laid front column es last) : EntriesOnly es := by
  induction h with
  | nil => nofun
  | scalar _ _ _ _ ih => exact List.forall_mem_cons.2 ⟨⟨_, rfl, rfl⟩, ih⟩
  | nested _ _ _ _ _ _ _ ih => exact List.forall_mem_cons.2 ⟨⟨_, rfl, rfl⟩, ih⟩

theorem endAt_onlyComments {lead : String} (h : IsTrivia lead.toList) :
    EndAt .start (onlyComments lead).toList := by
  refine ⟨?_, nofun⟩
  rw [onlyComments]
  split_ifs
  · rw [String.toList_ofList]
    exact isTrivia_withoutBlankLines h
  · rfl

theorem documentLaid_of_stitched {marker es : List Element} {m' : Node} {lead : List Char}
    {front last : Edge} {column : Nat} {s : Orphans} (hmarker : MarkerLaid marker front)
    (hlaid : Laid front column es last) (hend : EndAt last lead)
    (h : Stitched [⟨documentNode marker [.node (mappingNode es)] lead, marker.length⟩]
      (mappingNode es) [] m' s) :
    let v := documentNode marker [.node m'] lead
    DocumentLaid ((document v s).getD v) := by
  intro v
  have hroot : chainAt [⟨documentNode marker [.node (mappingNode es)] lead, marker.length⟩] = [] := by
    simp [chainAt, Cursor.ancestors, documentNode]
  have hm' : m' = mappingNode m'.children := h.mapping rfl
  have hkind : m'.kind = .yaml .mapping := by
    rw [hm']
    rfl
  have hmade := @document_eq marker m' ⟨.eof, String.ofList lead, ""⟩ hmarker.tokens hkind rfl v rfl s
  by_cases hnil : m'.children = []
  · obtain ⟨lines, hat, hlines⟩ := h.emptied rfl hnil hroot hlaid
    rw [show Cursor.path _ = [marker.length] from rfl] at hat
    have hempty : m'.childNodes.isEmpty = true := by simp [Node.childNodes, hnil]
    have htrivia : IsTrivia ((Carry.leading lines).onto (String.ofList lead)).toList :=
      isTrivia_onto hlines.closed (by simpa using hend.trivia)
    rw [hmade, hat, Option.map_some, if_pos hempty, Option.getD_some]
    have hlaid' := DocumentLaid.intro .none .none (endAt_onlyComments htrivia)
    simpa [documentNode, v] using hlaid'
  · obtain ⟨last', hlaid', hpassed⟩ := h.kept rfl hnil hlaid
    rw [show Cursor.path _ = [marker.length] from rfl] at hpassed
    have hempty : m'.childNodes.isEmpty = false := by
      rw [childNodes_isEmpty (entriesOnly_of_laid hlaid')]
      simpa using hnil
    have hmapping : MappingLaid front [.node m'] last' := by
      rw [hm']
      exact .some hnil hlaid'
    cases hat : s.at? [marker.length] with
    | none =>
        rw [hat] at hpassed
        rw [hmade, hat]
        rw [show last' = last from hpassed] at hmapping
        exact .intro hmarker hmapping hend
    | some carry =>
        rw [hat] at hpassed
        cases carry with
        | leading lines => exact hpassed.elim
        | tail comment =>
            have hend' : EndAt last (String.ofList lead).toList := by simpa using hend
            have hdocument := DocumentLaid.intro hmarker hmapping (endAt_tail hend' hpassed)
            rw [hmade, hat, Option.map_some, if_neg (by simp [hempty]), Option.getD_some]
            simpa [documentNode, v] using hdocument

theorem deleted_laid (target : Target) {d : Node} (hd : DocumentShaped d) (h : DocumentLaid d) :
    DocumentLaid (deleted target d) := by
  obtain ⟨es', below, s, hswept, hresult, _⟩ := walk_document (leaves_stitching target) hd.kind
  obtain @⟨marker, mapping, front, last, lead, hmarker, hmapping, hend⟩ := h
  have htokens : ∀ e ∈ marker, ∃ t, e = .token t := fun e he => by
    obtain ⟨t, ht, _⟩ := hmarker.tokens e he
    exact ⟨t, ht⟩
  have hparts : ∀ mapping, (documentNode marker mapping lead).children =
      marker ++ (mapping ++ [.token ⟨.eof, String.ofList lead, ""⟩]) := fun mapping =>
    List.append_assoc ..
  rw [hparts] at hswept
  obtain ⟨rest, rfl, hrest⟩ := swept_tokens htokens hswept
  rw [Nat.zero_add] at hrest
  rw [deleted, hresult]
  cases hmapping with
  | none =>
      cases hrest with
      | token h =>
      cases h
      rw [document_none]
      have hlaid := DocumentLaid.intro hmarker .none hend
      rwa [← eta_eq (documentNode marker [] lead), hparts] at hlaid
  | @some _ column es hne hlaid =>
      cases hrest with
      | @node _ _ m' _ _ _ _ _ _ _ hn h =>
      cases h with
      | token h =>
      cases h
      obtain ⟨_, hstitched⟩ := hn (hd.child (by simp [documentNode])).2
        (List.forall_mem_nil _)
      have hlaid' := documentLaid_of_stitched hmarker hlaid hend hstitched
      rwa [← eta_eq (documentNode marker [.node m'] lead), hparts] at hlaid'

/-- The text of a document behind a deletion is read back as the document, unless a text in the
document runs over its line. -/
theorem deleteProperty_reparses {source key : String} {d : Node} {path : KeyPath}
    (hdocument : parseDocument source = .ok d) (hlines : ∀ t ∈ d.leaves, '\n' ∉ t.text.toList)
    (hpath : KeyPath.parse key = .ok path) (expected : Option Recipe.OptionValue)
    {coalesce : Option Bool} (h : coalesce ≠ some true) :
    let result := (deleteProperty (some key) expected coalesce).apply ⟨d, []⟩
    parseDocument result.root.print = .ok result.root := by
  intro result
  have hresult : result.root = deleted ⟨path, expected⟩ d := by
    rw [show result = _ from apply_eq hpath expected h d, deleted]
    cases ((visitor ⟨path, expected⟩).walk d []).1 <;> rfl
  rw [hresult]
  exact parseDocument_of_laid
    (deleted_laid _ (shaped_of_parseDocument hdocument) (laid_of_parseDocument hdocument hlines))

/-- The last entry of a mapping goes, with the lines in front of it; the comment that ends the line
before stays, and the next entry keeps its own line. -/
theorem deleteProperty_reparses_comments :
    let source := "# h\n---\na: # x\n  b: 1 # y\n  # z\n  c: 2 # w\n\n# v\nd:\n  e: 3\n# end"
    let recipe := deleteProperty (some "a.c") none none
    ∃ d, parseDocument source = .ok d ∧
      (recipe.apply ⟨d, []⟩).root.print = "# h\n---\na: # x\n  b: 1 # y\n\n# v\nd:\n  e: 3\n# end" ∧
      parseDocument (recipe.apply ⟨d, []⟩).root.print = .ok (recipe.apply ⟨d, []⟩).root := by
  intro source recipe
  have hparses : (parseDocument source).toOption.map (fun d =>
      (d.leaves.all fun t => !t.text.toList.contains '\n', (recipe.apply ⟨d, []⟩).root.print)) =
        some (true, "# h\n---\na: # x\n  b: 1 # y\n\n# v\nd:\n  e: 3\n# end") := by
    decide +kernel
  have hpath : KeyPath.parse "a.c" = .ok ⟨["a", "c"], by simp⟩ := by decide +kernel
  cases hdocument : parseDocument source with
  | error e =>
      rw [hdocument] at hparses
      cases hparses
  | ok d =>
      rw [hdocument] at hparses
      simp only [Except.toOption, Option.map_some, Option.some.injEq, Prod.mk.injEq,
        List.all_eq_true, Bool.not_eq_true', List.contains_eq_mem, decide_eq_false_iff_not] at hparses
      exact ⟨d, rfl, hparses.2,
        deleteProperty_reparses hdocument hparses.1 hpath none (show none ≠ some true by simp)⟩

end Codemod.Recipes.Deletion
