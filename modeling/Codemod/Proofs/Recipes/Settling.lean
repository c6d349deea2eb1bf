import Codemod.Proofs.Engine.NewTrees
import Codemod.Proofs.Java.Attributed
import Codemod.Proofs.Recipes.FoldedDeletion
import Codemod.Proofs.Recipes.SettledSemicolons

/-!
Recipes that come to rest at once: applied to the tree that they made of a parsed file they replace
nothing, so a run of one of them alone ends with its second pass at the latest. A folded document has
nothing left to fold, and a document without selected entries gets none when it is folded: an entry of
a folded document spells the path of an entry that was there before, with the same value.
-/

namespace Codemod.Recipes.Folding

open Codemod.Tree Codemod.Yaml

/-! ### What is seen of an entry -/

/-- The path that a chain of entries spells, and the text of its last entry's value. -/
def entryView (chain : List Node) : List String × Option String :=
  (keyPath chain, (chain.getLast?.bind entryValue?).bind scalarText?)

/-- What is seen of the entries in a child. -/
def entryViews (e : Element) : List (List String × Option String) :=
  (entryChainsElement [] e).map entryView

theorem entryViews_group {n : Node} (hkind : n.kind ≠ .yaml .entry) :
    entryViews (.node n) = n.childNodes.flatMap fun c => entryViews (.node c) := by
  rw [entryViews, entryChainsElement, entryChains_inner hkind, entryChainsList_eq, List.map_flatMap]
  rfl

theorem entryViews_entry {n value : Node} {key colon : Token} (hkind : n.kind = .yaml .entry)
    (hes : n.children = [.token key, .token colon, .node value]) (hkey : key.kind = .text) :
    entryViews (.node n) = (keySegments key.text, scalarText? value) ::
      (entryViews (.node value)).map fun view => (keySegments key.text ++ view.1, view.2) := by
  have hbelow : entryChains [n] value = (entryChains [] value).map (n :: ·) := by
    rw [← List.append_nil [n], entryChains_eq_map]
    rfl
  rw [entryViews, entryViews, entryChainsElement, entryChainsElement, entryChains_entry hkind hes,
    List.nil_append, hbelow, List.map_cons, List.map_map, List.map_map,
    ← entrySegments_entry hkind hes hkey]
  congr 1
  · simp [entryView, keyPath, entryValue_entry hkind hes]
  · refine List.map_congr_left fun chain hchain => ?_
    obtain ⟨last, hlast⟩ : ∃ last, chain.getLast? = some last :=
      ⟨_, List.getLast?_eq_some_getLast (entryChains_ne_nil hchain)⟩
    simp [entryView, keyPath, List.getLast?_cons, hlast]

theorem entryViews_dedent (shift : Nat) (n : Node) :
    entryViews (.node (dedent shift n)) = entryViews (.node n) := by
  have hchains := entryChains_dedent shift [] n
  rw [List.map_nil] at hchains
  rw [entryViews, entryViews, entryChainsElement, entryChainsElement, hchains, List.map_map]
  refine List.map_congr_left fun chain _ => ?_
  have hpath : keyPath (chain.map (dedent shift)) = keyPath chain :=
    keyPath_congr (by simp [keyText_dedent])
  rw [Function.comp_apply, entryView, entryView, hpath, List.getLast?_map]
  congr 1
  cases chain.getLast? with
  | none => rfl
  | some e =>
      rw [Option.map_some, Option.bind_some, Option.bind_some, entryValue_dedent]
      cases entryValue? e with
      | none => rfl
      | some value => exact scalarText_dedent shift value

theorem Joins.entryViews {e e' : Node} (h : Joins e e') :
    Folding.entryViews (.node e') ⊆ Folding.entryViews (.node e) := by
  cases h with
  | @intro mapping inner value key colon innerKey innerColon sign hkind hes hkey hmapping hinner
      hkind' hes' hkey' _ htext hplain hplain' _ =>
      have hlifted : Folding.entryViews (.node (liftedValue e inner value)) =
            Folding.entryViews (.node value) ∧
          scalarText? (liftedValue e inner value) = scalarText? value := by
        rcases liftedValue_cases e inner value with hsame | ⟨shift, hdedent⟩
        · rw [hsame]
          exact ⟨rfl, rfl⟩
        · rw [hdedent]
          exact ⟨entryViews_dedent shift value, scalarText_dedent shift value⟩
      have hvalue : Folding.entryViews (.node mapping) = Folding.entryViews (.node inner) := by
        rw [entryViews_group (by simp [hmapping]), Node.childNodes, hinner]
        simp [Element.node?]
      rw [@entryViews_entry { e with children := _ } _ ⟨.text, "", _⟩ _ hkind rfl rfl, hlifted.1,
        hlifted.2, keySegments_join htext hplain hplain', entryViews_entry hkind hes hkey, hvalue,
        entryViews_entry hkind' hes' hkey', List.map_cons, List.map_map]
      simp only [Function.comp_def, List.append_assoc]
      exact List.subset_cons_self _ _

theorem Coalesced.scalarText {n n' : Node} (h : Coalesced (.node n) (.node n')) :
    scalarText? n' = scalarText? n := by
  have hentry : ∀ {m : Node}, m.kind = .yaml .entry → scalarText? m = none := fun hkind =>
    scalarText_eq_none (by simp [hkind])
  cases h with
  | group _ hes h => exact scalarText_group hes h
  | kept hkind =>
      rw [hentry hkind]
      exact hentry hkind
  | joined hkind _ _ _ _ hjoins => rw [hentry hkind, hentry (hjoins.kind_eq.trans hkind)]

theorem Coalesced.entryViews {e e' : Element} (h : Coalesced e e') :
    Folding.entryViews e' ⊆ Folding.entryViews e := by
  have hvisited : ∀ {n value value' : Node} {key colon : Token}, n.kind = .yaml .entry →
      n.children = [.token key, .token colon, .node value] → key.kind = .text →
        Coalesced (.node value) (.node value') →
          Folding.entryViews (.node value') ⊆ Folding.entryViews (.node value) →
            Folding.entryViews
                (.node { n with children := [.token key, .token colon, .node value'] }) ⊆
              Folding.entryViews (.node n) := by
    intro n value value' key colon hkind hes hkey h ih
    rw [entryViews_entry hkind hes hkey, ← h.scalarText,
      @entryViews_entry { n with children := _ } _ _ _ hkind rfl hkey]
    exact List.cons_subset_cons _ (List.map_subset _ ih)
  induction h with
  | token t => exact List.Subset.refl _
  | @group n pairs hkind hes h ih =>
      obtain ⟨nodes, hfst, hsnd, hmem⟩ := coalesced_childNodes h
      rw [@entryViews_group { n with children := pairs.map Prod.snd } hkind, entryViews_group hkind,
        Node.childNodes, Node.childNodes, hes, hfst, hsnd, List.flatMap_map, List.flatMap_map]
      intro view hview
      obtain ⟨q, hq, hview⟩ := List.mem_flatMap.1 hview
      obtain ⟨p, hp, rfl⟩ := hmem q hq
      exact List.mem_flatMap.2 ⟨q, hq, ih _ hp hview⟩
  | kept hkind hes hkey _ h ih => exact hvisited hkind hes hkey h ih
  | joined hkind hes hkey _ h hjoins ih =>
      exact List.Subset.trans hjoins.entryViews (hvisited hkind hes hkey h ih)

theorem unselected_folded {target : Deletion.Target} {d d' : Node}
    (h : Coalesced (.node d) (.node d'))
    (hd : ∀ chain ∈ entryChains [] d, target.selects chain = false) :
    ∀ chain ∈ entryChains [] d', target.selects chain = false := by
  intro chain hchain
  obtain ⟨chain', hchain', hview⟩ := List.mem_map.1 (h.entryViews (List.mem_map_of_mem hchain))
  obtain ⟨hpath, hvalue⟩ := Prod.mk.inj hview
  rw [← hd chain' hchain', Deletion.Target.selects, Deletion.Target.selects, hpath, hvalue]

/-! ### Nothing to do -/

theorem shaped_below {n m : Node} (h : Shaped n) (hm : m ∈ n.preorder) : Shaped m := by
  induction n using Node.induction_on with
  | step n ih =>
      rcases mem_preorder.1 hm with rfl | ⟨c, hc, hm⟩
      · exact h
      · exact ih c hc (h.child hc) hm

theorem walk_folded {d : Node} (hd : DocumentShaped d) (hwritten : d.Everywhere Written) :
    visitor.walk (folded d) () = (none, ()) := by
  have hcoalesced := walk_coalesced hd hwritten
  obtain ⟨hd', hwritten'⟩ := hcoalesced.document hd hwritten
  refine Visitor.walk_idle (fun _ _ => rfl) fun m hm cursor => ?_
  by_cases hkind : m.kind = .yaml .entry
  · have hshaped : Shaped m := by
      rcases mem_preorder.1 hm with rfl | ⟨c, hc, hm⟩
      · rw [hd'.kind] at hkind
        cases hkind
      · exact shaped_below (hd'.child hc).2 hm
    have hbelow : m.Everywhere Written := fun l hl => hwritten' l (mem_preorder_trans hl hm)
    have hstays := (fold_of_written hkind hshaped hbelow).2 (hcoalesced.settled m hm)
    rw [leave_entry cursor hkind, hstays]
  · exact leave_other cursor hkind

theorem walk_unselected {target : Deletion.Target} {d : Node} (hd : DocumentShaped d)
    (hnone : ∀ chain ∈ entryChains [] d, target.selects chain = false) :
    ((Deletion.visitor target).walk d []).1 = none := by
  have hchanged := (Deletion.walk_deletes target hd).changed_iff
  rw [← Option.not_isSome_iff_eq_none, hchanged]
  rintro ⟨chain, hchain, hselects⟩
  rw [hnone chain hchain] at hselects
  cases hselects

end Codemod.Recipes.Folding

namespace Codemod.Recipe

open Codemod.Tree

theorem inOrder_quiet {rs : List Recipe} {root : Node} (h : Quiet rs root) :
    inOrder rs root = ⟨root, []⟩ := by
  induction rs with
  | nil => rfl
  | cons r rs ih =>
      obtain ⟨hr, hrest⟩ := List.forall_mem_cons.1 h
      rw [inOrder, hr]
      exact ih hrest

theorem root_apply (recipe : Recipe) (root : Node) :
    (recipe.apply ⟨root, []⟩).root =
      (inOrder (preorderAll recipe.children) ((recipe.own root).getD root)).root := by
  rw [apply_eq_inOrder, preorder_eq, root_inOrder_cons]

theorem apply_quiet {recipe : Recipe} {root : Node} (h : Quiet recipe.preorder root) :
    recipe.apply ⟨root, []⟩ = ⟨root, []⟩ := by
  rw [apply_eq_inOrder, inOrder_quiet h]
  rfl

/-- Applied to its own result, the recipe replaces nothing. -/
def SettlesOn (recipe : Recipe) (root : Node) : Prop :=
  Quiet recipe.preorder (recipe.apply ⟨root, []⟩).root

theorem settlesOn_of_quiet {recipe : Recipe} {root : Node} (h : Quiet recipe.preorder root) :
    recipe.SettlesOn root := by
  rwa [SettlesOn, apply_quiet h]

theorem settlesOn_single {recipe : Recipe} {root : Node} (hchildren : recipe.children = [])
    (h : recipe.own ((recipe.own root).getD root) = none) : recipe.SettlesOn root := by
  rw [SettlesOn, root_apply, preorder_eq, hchildren]
  exact List.forall_mem_singleton.2 h

end Codemod.Recipe

namespace Codemod.Engine

open Codemod.Tree Source

theorem runFile_settles {recipe : Recipe} {file : SourceFile} (hprint : file.root.print = file.text)
    (hsettles : recipe.SettlesOn file.root) (settings : Settings) :
    ∃ change, runFile settings [recipe] file = .ok change ∧
      change.after = (recipe.apply ⟨file.root, []⟩).root.print ∧ change.cycles ≤ 2 := by
  obtain ⟨left, hleft⟩ := Nat.exists_eq_add_of_le' settings.one_le_maxCycles
  have hfirst := Recipe.applyAll_single recipe ⟨file.root, []⟩
  have hsecond := (Recipe.applyAll_single recipe _).trans (Recipe.apply_quiet hsettles)
  rw [runFile_eq, if_neg (by simpa using hprint), hleft]
  cases hnames : (recipe.apply ⟨file.root, []⟩).changedBy with
  | nil =>
      have hpasses : passesOver [recipe] 0 [] (left + 1) file.root =
          .converged (recipe.apply ⟨file.root, []⟩).root [] 1 := by
        unfold passesOver
        simp only [hfirst, hnames]
      rw [hpasses]
      exact ⟨_, rfl, rfl, show 1 ≤ 2 by omega⟩
  | cons first rest =>
      have hpasses : passesOver [recipe] 0 [] (left + 1) file.root =
          .converged (recipe.apply ⟨file.root, []⟩).root (addNew [] (first :: rest)) 2 := by
        unfold passesOver
        simp only [hfirst, hnames]
        unfold passesOver
        simp only [hsecond]
      rw [hpasses]
      exact ⟨_, rfl, rfl, Nat.le_refl 2⟩

end Codemod.Engine

namespace Codemod.Recipes

open Codemod.Tree Codemod.Yaml Codemod.Source

/-! ### Units -/

namespace Semicolons

open Codemod.Java

theorem constantsShaped_of_formed {n : Node} (h : Formed n) : ConstantsShaped n := by
  intro hkind t ht
  rcases h _ hkind with hchildren | ⟨items, _, hchildren⟩
  · rw [hchildren] at ht ⊢
    rw [List.mem_singleton.1 ht]
  · rw [hchildren] at ht
    simp at ht

theorem constantsShaped_of_untyped {n : Node} (h : ConstantsShaped n.untyped) : ConstantsShaped n := by
  intro hkind t ht
  have hmem : Element.token t ∈ n.untyped.children := by
    rw [children_untyped, untypedList_eq_map]
    exact List.mem_map_of_mem ht
  have hchildren := h ((kind_untyped n).trans hkind) t hmem
  rw [children_untyped] at hchildren
  exact @untypedList_eq_tokens _ [t] hchildren

theorem constantsShaped_of_parseUnit {source : String} {unit : Node}
    (h : parseUnit source = .ok unit) (symbols : SymbolTable) :
    (attributeUnit symbols unit).Everywhere ConstantsShaped := by
  obtain ⟨hunit, _⟩ := unit_of_parseUnit h
  obtain ⟨huntyped, _⟩ := types_attributeUnit symbols hunit.kind
  rw [untyped_eq_self (untyped_of_parseUnit h)] at huntyped
  intro m hm
  have hm' := huntyped ▸ mem_preorder_untyped hm
  exact constantsShaped_of_untyped (constantsShaped_of_formed (formed_of_parseUnit h _ hm'))

theorem settlesOn_unit {unit : Node} (hkind : unit.kind = .java .compilationUnit)
    (h : unit.Everywhere ConstantsShaped) : removeExtraSemicolons.SettlesOn unit := by
  refine Recipe.settlesOn_single rfl ?_
  have haccepts : visitor.accepts unit = true := by
    simp [visitor, Java.Hooks.visitor, hkind]
  exact congrArg Prod.fst (walk_trimmed haccepts h)

end Semicolons

/-! ### Documents -/

theorem own_deletion (key : Option String) (expected : Option Recipe.OptionValue)
    (coalesce : Option Bool) (root : Node) :
    (deleteProperty key expected coalesce).own root =
      (Deletion.target? key expected).bind fun target =>
        ((Deletion.visitor target).walk root []).1 := by
  show ((Deletion.target? key expected).map _).bind _ = _
  rw [Option.bind_map]
  rfl

theorem root_folding (root : Node) :
    (Recipe.inOrder (Recipe.preorderAll [coalesceProperties]) root).root = Folding.folded root :=
  Recipe.root_inOrder_cons coalesceProperties [] root

section
variable {d : Node} (hd : DocumentShaped d) (hwritten : d.Everywhere Written)
include hd hwritten

theorem settlesOn_folding : coalesceProperties.SettlesOn d :=
  Recipe.settlesOn_single rfl (congrArg Prod.fst (Folding.walk_folded hd hwritten))

theorem own_deleteProperty (key : Option String) (expected : Option Recipe.OptionValue)
    (coalesce : Option Bool) :
    let recipe := deleteProperty key expected coalesce
    let left := (recipe.own d).getD d
    DocumentShaped left ∧ left.Everywhere Written ∧ recipe.own left = none ∧
      recipe.own (Folding.folded left) = none := by
  simp only [own_deletion]
  cases Deletion.target? key expected with
  | none => exact ⟨hd, hwritten, rfl, rfl⟩
  | some target =>
      have hdeleted : Deletion.Deleted target d (Deletion.deleted target d) _ :=
        Deletion.walk_deletes target hd
      have hkept := Deletion.walk_written target hd hwritten
      have hfolded := Folding.walk_coalesced hdeleted.shaped hkept
      exact ⟨hdeleted.shaped, hkept, Folding.walk_unselected hdeleted.shaped hdeleted.unselected,
        Folding.walk_unselected (hfolded.document hdeleted.shaped hkept).1
          (Folding.unselected_folded hfolded hdeleted.unselected)⟩

theorem settlesOn_deletion (key : Option String) (expected : Option Recipe.OptionValue)
    (coalesce : Option Bool) : (deleteProperty key expected coalesce).SettlesOn d := by
  obtain ⟨hshaped, hkept, hrests, hrests'⟩ := own_deleteProperty hd hwritten key expected coalesce
  by_cases hfold : coalesce.getD false = true
  · have hchildren : (deleteProperty key expected coalesce).children = [coalesceProperties] :=
      if_pos hfold
    rw [Recipe.SettlesOn, Recipe.root_apply, Recipe.preorder_eq, hchildren, root_folding]
    have hfolded := congrArg Prod.fst (Folding.walk_folded hshaped hkept)
    exact List.forall_mem_cons.2 ⟨hrests', List.forall_mem_singleton.2 hfolded⟩
  · exact Recipe.settlesOn_single (if_neg hfold) hrests

end

/-! ### Parsed files -/

/-- The file was parsed, by itself or with others. -/
inductive Parsed : SourceFile → Prop where
  | alone {language : Language} {path text : String} {file : SourceFile}
      (h : language.parse path text = .ok file) : Parsed file
  | together {language : Language} {inputs : List (String × String)} {file : SourceFile}
      (h : .ok file ∈ language.parseAll inputs) : Parsed file

theorem Parsed.root {file : SourceFile} (h : Parsed file) :
    (∃ unit symbols, Java.parseUnit file.text = .ok unit ∧
        file.root = Java.attributeUnit symbols unit) ∨
      parseDocument file.text = .ok file.root := by
  have hjava : ∀ {path text : String} (symbols : Node → Java.SymbolTable),
      ((parseJava path text).map fun unit =>
          ({ path, text, root := Java.attributeUnit (symbols unit) unit } : SourceFile)) = .ok file →
        ∃ unit symbols, Java.parseUnit file.text = .ok unit ∧
          file.root = Java.attributeUnit symbols unit := by
    intro path text symbols h
    rw [parseJava] at h
    cases hunit : Java.parseUnit text with
    | error e =>
        rw [hunit] at h
        cases h
    | ok unit =>
        rw [hunit] at h
        cases h
        exact ⟨unit, symbols unit, hunit, rfl⟩
  have hyaml : ∀ {path text : String}, parseYaml path text = .ok file →
      parseDocument file.text = .ok file.root := by
    intro path text h
    rw [parseYaml] at h
    split at h
    · rename_i root hroot
      cases h
      exact hroot
    · cases h
  cases h with
  | @alone language path text _ h =>
      cases language with
      | java => exact .inl (hjava _ h)
      | yaml => exact .inr (hyaml h)
  | @together language inputs _ h =>
      cases language with
      | java =>
          obtain ⟨⟨path, text, parsed⟩, hparsed, h⟩ := List.mem_map.1 h
          obtain ⟨_, _, hsame⟩ := List.mem_map.1 hparsed
          cases hsame
          exact .inl (hjava (fun _ => _) h)
      | yaml =>
          obtain ⟨⟨path, text⟩, _, h⟩ := List.mem_map.1 h
          exact .inr (hyaml h)

/-- The recipes that remove semicolons and that fold or delete properties. -/
inductive Trimming : Recipe → Prop where
  | semicolons : Trimming removeExtraSemicolons
  | folding : Trimming coalesceProperties
  | deletion (key : Option String) (expected : Option Recipe.OptionValue) (coalesce : Option Bool) :
      Trimming (deleteProperty key expected coalesce)

theorem quiet_unit {unit : Node} (hkind : unit.kind = .java .compilationUnit) :
    coalesceProperties.own unit = none ∧ ∀ key expected coalesce,
      (deleteProperty key expected coalesce).own unit = none := by
  have hrejects : ∀ {σ : Type} (hooks : Hooks σ), hooks.visitor.accepts unit = false := by
    intro σ hooks
    show (unit.kind == .yaml .document) = false
    rw [hkind]
    rfl
  refine ⟨congrArg Prod.fst (Visitor.walk_rejected (hrejects _) ()), fun key expected coalesce => ?_⟩
  rw [own_deletion]
  cases Deletion.target? key expected with
  | none => rfl
  | some target => exact congrArg Prod.fst (Visitor.walk_rejected (hrejects _) [])

theorem Trimming.settlesOn {recipe : Recipe} (h : Trimming recipe) {file : SourceFile}
    (hfile : Parsed file) : recipe.SettlesOn file.root := by
  rcases hfile.root with ⟨unit, symbols, hunit, hroot⟩ | hdocument
  · have hkind : file.root.kind = .java .compilationUnit :=
      hroot ▸ (Java.attributed_of_parseUnit hunit symbols).1.kind
    obtain ⟨hfolding, hdeletion⟩ := quiet_unit hkind
    cases h with
    | semicolons =>
        exact Semicolons.settlesOn_unit hkind
          (hroot ▸ Semicolons.constantsShaped_of_parseUnit hunit symbols)
    | folding => exact Recipe.settlesOn_of_quiet (List.forall_mem_singleton.2 hfolding)
    | deletion key expected coalesce =>
        refine Recipe.settlesOn_of_quiet ?_
        rw [Recipe.preorder_eq]
        refine List.forall_mem_cons.2 ⟨hdeletion key expected coalesce, ?_⟩
        show ∀ r ∈ Recipe.preorderAll (if coalesce.getD false then [coalesceProperties] else []), _
        split_ifs
        · exact List.forall_mem_singleton.2 hfolding
        · nofun
  · have hd := shaped_of_parseDocument hdocument
    have hwritten := written_of_parseDocument hdocument
    cases h with
    | semicolons =>
        have hrejects : Semicolons.visitor.accepts file.root = false := by
          show (file.root.kind == .java .compilationUnit) = false
          rw [hd.kind]
          rfl
        exact Recipe.settlesOn_of_quiet (List.forall_mem_singleton.2
          (congrArg Prod.fst (Visitor.walk_rejected hrejects ())))
    | folding => exact settlesOn_folding hd hwritten
    | deletion key expected coalesce => exact settlesOn_deletion hd hwritten key expected coalesce

theorem Parsed.print_root {file : SourceFile} (h : Parsed file) : file.root.print = file.text := by
  rcases h.root with ⟨unit, symbols, hunit, hroot⟩ | hdocument
  · exact hroot ▸ (Java.attributed_of_parseUnit hunit symbols).2
  · exact print_of_parseDocument hdocument

/-- Applied once, the recipes leave a tree in which they replace nothing, and a run of one of them
alone over a parsed file ends with that tree after at most two passes. -/
theorem trimming_settles {file : SourceFile} (hfile : Parsed file) {recipe : Recipe}
    (hrecipe : Trimming recipe) :
    let once := (recipe.apply ⟨file.root, []⟩).root
    recipe.apply ⟨once, []⟩ = ⟨once, []⟩ ∧
      ∀ settings : Engine.Settings, ∃ change,
        Engine.runFile settings [recipe] file = .ok change ∧ change.after = once.print ∧
          change.cycles ≤ 2 :=
  have hsettles := hrecipe.settlesOn hfile
  ⟨Recipe.apply_quiet hsettles, Engine.runFile_settles hfile.print_root hsettles⟩

/-- An empty member hides the terminator of constants, and a deletion leaves an entry to fold. -/
theorem trimming_settles_both :
    let deletion := deleteProperty (some "a.d") none (some true)
    (∃ file, Language.java.parse "E.java" "enum E { A, B; ; }" = .ok file ∧
      let once := (removeExtraSemicolons.apply ⟨file.root, []⟩).root
      once.print = "enum E { A, B }" ∧ removeExtraSemicolons.apply ⟨once, []⟩ = ⟨once, []⟩ ∧
        ∃ change, Engine.runFile {} [removeExtraSemicolons] file = .ok change ∧
          change.after = "enum E { A, B }" ∧ change.cycles ≤ 2) ∧
    ∃ file, Language.yaml.parse "a.yml" "a:\n  b:\n    c: 1\n  d: 2\n" = .ok file ∧
      let once := (deletion.apply ⟨file.root, []⟩).root
      once.print = "a.b.c: 1\n" ∧ deletion.apply ⟨once, []⟩ = ⟨once, []⟩ ∧
        ∃ change, Engine.runFile {} [deletion] file = .ok change ∧
          change.after = "a.b.c: 1\n" ∧ change.cycles ≤ 2 := by
  intro deletion
  refine ⟨?_, ?_⟩
  · have hprint : (Language.java.parse "E.java" "enum E { A, B; ; }").toOption.map
        (fun file => (removeExtraSemicolons.apply ⟨file.root, []⟩).root.print) =
          some "enum E { A, B }" := by
      decide +kernel
    cases hfile : Language.java.parse "E.java" "enum E { A, B; ; }" with
    | error e =>
        rw [hfile] at hprint
        cases hprint
    | ok file =>
        rw [hfile] at hprint
        have hprint := Option.some.inj hprint
        obtain ⟨hsame, hruns⟩ := trimming_settles (.alone hfile) .semicolons
        obtain ⟨change, hrun, hafter, hcycles⟩ := hruns {}
        exact ⟨file, rfl, hprint, hsame, change, hrun, hafter.trans hprint, hcycles⟩
  · have hprint : (Language.yaml.parse "a.yml" "a:\n  b:\n    c: 1\n  d: 2\n").toOption.map
        (fun file => (deletion.apply ⟨file.root, []⟩).root.print) = some "a.b.c: 1\n" := by
      decide +kernel
    cases hfile : Language.yaml.parse "a.yml" "a:\n  b:\n    c: 1\n  d: 2\n" with
    | error e =>
        rw [hfile] at hprint
        cases hprint
    | ok file =>
        rw [hfile] at hprint
        have hprint := Option.some.inj hprint
        obtain ⟨hsame, hruns⟩ := trimming_settles (.alone hfile) (.deletion (some "a.d") none (some true))
        obtain ⟨change, hrun, hafter, hcycles⟩ := hruns {}
        exact ⟨file, rfl, hprint, hsame, change, hrun, hafter.trans hprint, hcycles⟩

end Codemod.Recipes
