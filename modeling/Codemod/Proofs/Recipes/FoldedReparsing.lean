import Codemod.Proofs.Recipes.FoldedLayout

/-!
Folded documents are read back. Each entry keeps its column while the entries below it are folded, so
the layout of a document is kept from the innermost entry out.
-/

namespace Codemod.Recipes.Folding

open Codemod.Tree Codemod.Yaml

/-! ### What is made of an entry -/

theorem Coalesced.key_cases {n n' : Node} (h : Coalesced (.node n) (.node n')) :
    keyText n' = keyText n ∨ ∃ key more, keyText n = some key ∧ key.toList ≠ [] ∧
      keyText n' = some (key ++ "." ++ more) := by
  cases h with
  | group hkind => exact .inl (by simp [keyText, entryKey?, hkind])
  | kept hkind hes hkey =>
      refine .inl ?_
      rw [keyText_entry hkind hes hkey]
      exact keyText_entry hkind rfl hkey
  | joined hkind hes hkey _ _ hjoins =>
      cases hjoins with
      | intro hkind' hes' _ _ _ _ _ _ _ htext hplain =>
          cases hes'
          obtain ⟨c, rest, hraw, _⟩ := htext hplain
          exact .inr ⟨_, _, keyText_entry hkind hes hkey, by simp [hraw],
            @keyText_entry { n with children := _ } _ ⟨.text, "", _⟩ _ hkind' rfl rfl⟩

theorem clashes_visited {n v inner inner' : Node} {key : String} (hkey : keyText n = some key)
    (hne : key.toList ≠ []) (hsame : keyText v = keyText n)
    (h : Coalesced (.node inner) (.node inner')) (hclash : clashes n inner = false) :
    clashes v inner' = false := by
  rcases h.key_cases with hstays | ⟨key', more, hkey', hne', hjoined⟩
  · rwa [clashes, hsame, hstays]
  · rw [clashes, hkey, hkey', Bool.or_eq_false_iff, Option.getD_some, Option.getD_some] at hclash
    rw [clashes, hsame, hkey, hjoined, Bool.or_eq_false_iff, Option.getD_some, Option.getD_some]
    refine ⟨?_, Bool.eq_false_iff.2 fun hmarker => ?_⟩
    · have hdot : key' ++ "." ++ more ≠ ":" := fun h => by
        have hmem : '.' ∈ (key' ++ "." ++ more).toList := by simp
        rw [h] at hmem
        revert hmem
        decide
      simpa using hdot
    · -- What is joined to the inner key stands behind the end of the sign.
      rw [@startsMarker_front "..." (key.toList ++ '.' :: key'.toList) ('.' :: more.toList) ?_
        (by simpa using hmarker)] at hclash
      · cases hclash.2
      · have hlength := List.length_pos_iff.2 hne
        have hlength' := List.length_pos_iff.2 hne'
        rw [List.length_append, List.length_cons, show "...".toList.length = 3 from rfl]
        omega

theorem fits_visited {n value value' : Node} {key colon : Token} (hkind : n.kind = .yaml .entry)
    (hes : n.children = [.token key, .token colon, .node value]) (hkey : key.kind = .text)
    (hne : key.text.toList ≠ []) (hvalue : value.kind = .yaml .mapping)
    (h : Coalesced (.node value) (.node value')) (hfits : Fits n) :
    Fits { n with children := [.token key, .token colon, .node value'] } := by
  intro hfolds inner' hinner'
  rw [folds_visited hkind hes hkey h] at hfolds
  have hinner : ∀ {m v : Node}, m.kind = .yaml .entry →
      m.children = [.token key, .token colon, .node v] → inner? m = onlyChild? v := by
    intro m v hkind hes
    rw [inner?, entryValue_entry hkind hes]
    rfl
  rw [hinner (m := { n with children := _ }) hkind rfl] at hinner'
  obtain ⟨_, hnone⟩ | ⟨inner, inner'', hfound, hfound', hcoalesced⟩ :=
    onlyChild_coalesced (by simp [hvalue]) h
  · rw [hnone] at hinner'
    cases hinner'
  · obtain rfl : inner'' = inner' := Option.some.inj (hfound'.symm.trans hinner')
    obtain ⟨hclash, hled⟩ := hfits hfolds inner ((hinner hkind hes).trans hfound)
    refine ⟨clashes_visited (keyText_entry hkind hes hkey) hne ?_ hcoalesced hclash,
      hcoalesced.led noReturn_dedentText hled⟩
    rw [keyText_entry hkind hes hkey]
    exact @keyText_entry { n with children := _ } _ _ _ hkind rfl hkey

/-! ### Documents -/

theorem foldTree_entryNode (lead raw gap : List Char) (value : Node) :
    foldTree (entryNode lead raw gap value) =
      (fold? (entryNode lead raw gap (foldTree value))).getD
        (entryNode lead raw gap (foldTree value)) :=
  foldTree_entry rfl

theorem foldList_ne_nil {es : List Element} (h : es ≠ []) : foldList es ≠ [] := by
  obtain ⟨e, es, rfl⟩ := List.exists_cons_of_ne_nil h
  simp [foldList]

theorem foldTree_mappingNode (es : List Element) :
    foldTree (mappingNode es) = mappingNode (foldList es) :=
  foldTree_other (by simp [mappingNode])

theorem foldTree_scalar {key : List Char} {value : Node} {edge : Edge} (h : ScalarLaid key value edge) :
    foldTree value = value := by
  cases h <;> exact foldTree_other (by simp [scalarNode])

theorem entryLaid_fold {front behind : Edge} {column below : Nat} {lead raw gap : List Char}
    {children : List Element} (hlead : LeadAt front column lead) (hkey : KeyForm raw gap)
    (hdeeper : column < below) (hne : children ≠ [])
    (hchildren : Laid (colonBehind raw) below children behind) :
    let v := entryNode lead raw gap (mappingNode children)
    WellWritten v → Fits v →
      EntryLaid column ((fold? v).getD v) behind ∧ ((fold? v).getD v).lead = v.lead := by
  intro v hv hfits
  cases hfolds : folds v with
  | false =>
      rw [(fold_of_written rfl hv.shaped hv.written).2 hfolds]
      exact ⟨.nested hkey hdeeper hne hchildren, rfl⟩
  | true =>
      have honly := (mapping_of_shaped (hv.child (c := mappingNode children) (by simp [v, entryNode])).shaped
        (mem_preorder_self _) rfl).2
      obtain ⟨inner, hinner⟩ : ∃ inner, onlyChild? (mappingNode children) = some inner := by
        rw [@folds_entry v _ _ _ rfl rfl rfl, Bool.and_eq_true, Option.any_eq_true] at hfolds
        exact hfolds.2.imp fun _ h => h.1
      obtain rfl : children = [.node inner] := (onlyChild_eq_some honly).1 hinner
      obtain ⟨e, hfold, hsame, hlaid⟩ := laid_fold hlead hkey hdeeper hchildren hfolds hfits
      rw [hfold]
      exact ⟨hlaid, hsame⟩

theorem laid_foldList {front last : Edge} {column : Nat} {es : List Element}
    (h : Laid front column es last) (hwritten : ∀ c, Element.node c ∈ es → WellWritten c)
    (hfits : ∀ m ∈ Node.preorderList es, Fits m) : Laid front column (foldList es) last := by
  induction h with
  | nil => exact .nil
  | @scalar _ _ _ _ lead raw gap value es hlead hkey hvalue _ ih =>
      have hn := hwritten _ List.mem_cons_self
      have hstays : folds (entryNode lead raw gap value) = false := by
        rw [@folds_entry (entryNode lead raw gap value) _ _ _ rfl rfl rfl, hvalue.kind]
        rfl
      rw [foldList, foldElement, foldTree_entryNode, foldTree_scalar hvalue,
        (fold_of_written rfl hn.shaped hn.written).2 hstays]
      exact .scalar hlead hkey hvalue (ih (fun c hc => hwritten c (List.mem_cons_of_mem _ hc))
        fun m hm => hfits m (List.mem_append_right _ hm))
  | @nested _ _ _ _ _ lead raw gap children es hlead hkey hdeeper hne hchildren _ ihchildren ih =>
      have hn := hwritten _ List.mem_cons_self
      have hvalue : WellWritten (mappingNode children) := hn.child (by simp [entryNode])
      have hcoalesced := coalesced_foldTree hvalue
      rw [foldTree_mappingNode] at hcoalesced
      have hv : WellWritten (entryNode lead raw gap (mappingNode (foldList children))) :=
        wellWritten_entry (n := entryNode lead raw gap (mappingNode children)) rfl hn rfl rfl
          (hcoalesced.wellWritten (fun _ hc => by cases hc; exact hvalue) _ rfl)
      have hfitsv : Fits (entryNode lead raw gap (mappingNode (foldList children))) :=
        fits_visited (n := entryNode lead raw gap (mappingNode children)) rfl rfl rfl
          (by simpa using hkey.ne_nil) rfl hcoalesced
          (hfits _ (List.mem_append_left _ (mem_preorder_self _)))
      have hbelow := ihchildren (fun c hc => hvalue.child hc) fun m hm =>
        hfits m (mem_preorderList.2 ⟨_, List.mem_cons_self, mem_preorder.2 (.inr ⟨mappingNode children,
          by simp [entryNode], mem_preorder.2 (.inr (mem_preorderList.1 hm))⟩)⟩)
      obtain ⟨hlaid, hsame⟩ :=
        entryLaid_fold hlead hkey hdeeper (foldList_ne_nil hne) hbelow hv hfitsv
      rw [foldList, foldElement, foldTree_entryNode, foldTree_mappingNode]
      refine hlaid.cons (by rw [hsame]; simpa [entryNode] using hlead)
        (ih (fun c hc => hwritten c (List.mem_cons_of_mem _ hc)) fun m hm =>
          hfits m (List.mem_append_right _ hm))

theorem foldTree_documentNode {marker : List Element} {front : Edge} (hmarker : MarkerLaid marker front)
    (mapping : List Element) (lead : List Char) :
    foldTree (documentNode marker mapping lead) = documentNode marker (foldList mapping) lead := by
  have hend : ∀ es : List Element, ∀ t : Token, foldList (es ++ [.token t]) = foldList es ++ [.token t] := by
    intro es t
    induction es with
    | nil => rfl
    | cons e es ih => rw [List.cons_append, foldList, ih]; rfl
  rw [foldTree_other (by simp [documentNode])]
  cases hmarker <;> simp [documentNode, hend, foldList, foldElement]

theorem documentLaid_foldTree {d : Node} (h : DocumentLaid d) (hd : DocumentShaped d)
    (hwritten : d.Everywhere Written) (hfits : ∀ m ∈ d.preorder, Fits m) :
    DocumentLaid (foldTree d) := by
  obtain @⟨marker, mapping, front, last, lead, hmarker, hmapping, hend⟩ := h
  rw [foldTree_documentNode hmarker]
  refine .intro hmarker ?_ hend
  cases hmapping with
  | none => exact .none
  | @some _ column es hne hlaid =>
      have hmem : Element.node (mappingNode es) ∈
          (documentNode marker [.node (mappingNode es)] lead).children := by simp [documentNode]
      have hm : WellWritten (mappingNode es) := ⟨(hd.child hmem).2, (everywhere_iff.1 hwritten).2 _ hmem⟩
      rw [foldList, foldElement, foldTree_mappingNode]
      refine .some (foldList_ne_nil hne) (laid_foldList hlaid (fun c hc => hm.child hc) fun m hm =>
        hfits m ?_)
      exact mem_preorder.2 (.inr ⟨_, hmem, mem_preorder.2 (.inr (mem_preorderList.1 hm))⟩)

/-- The text of a document whose entries were folded is read back to the same tree: the entries of
each mapping stand in one column, which is deeper than that of the key around them. -/
theorem coalesceProperties_reparses {source : String} {d : Node}
    (h : parseDocument source = .ok d) (hlines : InLine d.leaves) (hfits : ∀ m ∈ d.preorder, Fits m) :
    let result := coalesceProperties.apply ⟨d, []⟩
    DocumentLaid result.root ∧ parseDocument result.root.print = .ok result.root := by
  intro result
  have hd := shaped_of_parseDocument h
  have hlaid : DocumentLaid result.root := by
    rw [show result.root = folded d from apply_eq ⟨d, []⟩, folded_eq hd.kind]
    exact documentLaid_foldTree (laid_of_parseDocument h hlines) hd (written_of_parseDocument h) hfits
  exact ⟨hlaid, parseDocument_of_laid hlaid⟩

/-- Two folds move the same lines; a comment may stand further to the left. -/
theorem coalesceProperties_reparses_nested :
    let source := "a:\n  b:\n    c:\n        d: 1\n  # n\n\n        e:\n          f: 2\n        g: 3\n"
    let result := fun d => coalesceProperties.apply ⟨d, []⟩
    ∃ d, parseDocument source = .ok d ∧
      (result d).root.print = "a.b.c:\n    d: 1\n# n\n\n    e.f: 2\n    g: 3\n" ∧
      DocumentLaid (result d).root ∧ parseDocument (result d).root.print = .ok (result d).root := by
  intro source result
  have hruns : (parseDocument source).toOption.map (fun d => ((result d).root.print,
      decide (∀ t ∈ d.leaves, '\n' ∉ t.text.toList), decide (∀ m ∈ d.preorder, Fits m))) =
        some ("a.b.c:\n    d: 1\n# n\n\n    e.f: 2\n    g: 3\n", true, true) := by
    decide +kernel
  cases hdocument : parseDocument source with
  | error e =>
      rw [hdocument] at hruns
      cases hruns
  | ok d =>
      rw [hdocument] at hruns
      simp only [Except.toOption, Option.map_some, Option.some.injEq, Prod.mk.injEq,
        decide_eq_true_eq] at hruns
      obtain ⟨hprint, hlines, hfits⟩ := hruns
      exact ⟨d, rfl, hprint, coalesceProperties_reparses hdocument hlines hfits⟩

/-- A carriage return in front of an entry keeps it where it was, so it leaves its column. -/
example : (parseDocument "a:\n  b:\n    c: 1\n\r   d: 2\n").toOption.map (fun d =>
    (coalesceProperties.apply ⟨d, []⟩).root.print) = some "a.b:\n  c: 1\n\r   d: 2\n" := by
  decide +kernel

end Codemod.Recipes.Folding
