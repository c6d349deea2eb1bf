import Codemod.Proofs.Engine.NewTrees
import Codemod.Proofs.Recipes.MethodImports
import Mathlib.Data.List.Basic

/-!
When renaming methods comes to rest. A second application of the recipe to its own result
changes nothing, unless the unit is restless; then every application changes it, and no run
converges.
-/

namespace Codemod.Recipes.MethodName

open Codemod.Tree Codemod.Java

namespace Renaming

variable {r : Renaming} {seen : Seen}

/-! ### The imports of a unit -/

/-- What stands in place of the children of a unit. -/
def edited (r : Renaming) (unit : Node) (seen : Seen) : List Element :=
  unit.children.flatMap fun e =>
    (r.replaceChild seen (unit.childNodes.filterMap staticImportParts?) e).getD [e]

theorem imports_eq (unit : Node) (seen : Seen) :
    (r.imports unit seen).getD unit = { unit with children := r.edited unit seen } := by
  rw [imports]
  split_ifs with hany
  · rfl
  · have hsame : r.edited unit seen = unit.children := by
      rw [edited]
      generalize unit.childNodes.filterMap staticImportParts? = existing at hany ⊢
      generalize unit.children = es at hany ⊢
      induction es with
      | nil => rfl
      | cons e es ih =>
          simp only [List.any_cons, Bool.or_eq_true, not_or, Bool.not_eq_true] at hany
          have hnone : r.replaceChild seen existing e = none := by simpa using hany.1
          rw [List.flatMap_cons, ih (by simpa using hany.2), hnone]
          rfl
    rw [hsame]
    cases unit
    rfl

theorem isSome_imports {unit : Node} :
    (r.imports unit seen).isSome = true ↔ ∃ e ∈ unit.children,
      (r.replaceChild seen (unit.childNodes.filterMap staticImportParts?) e).isSome = true := by
  rw [imports]
  split_ifs with hany
  · exact iff_of_true rfl (List.any_eq_true.1 hany)
  · refine iff_of_false (by simp) fun h => hany (List.any_eq_true.2 h)

theorem replaceChild_other {existing : List (String × String)} {e : Element}
    (h : ∀ n parts, e = .node n → staticImportParts? n ≠ some parts) :
    r.replaceChild seen existing e = none := by
  cases e with
  | token t => rfl
  | node n =>
      rw [replaceChild]
      cases hparts : staticImportParts? n with
      | none => rfl
      | some parts => exact absurd hparts (h n parts rfl)

section
variable {unit : Node} (hdot : '.' ∉ r.newName.toList) (hunit : Attributed unit)
include hdot hunit

theorem mem_edited {e' : Element} (h : e' ∈ r.edited unit seen) :
    (e' ∈ unit.children ∧ r.Stays seen e') ∨ ∃ e ∈ unit.children, r.Moves seen e e' := by
  obtain ⟨e, he, h⟩ := List.mem_flatMap.1 h
  have hshape : ∀ n, e = .node n → n.kind = .java .importClause → ClauseShaped n := by
    rintro n rfl hkind
    exact hunit.clauses n he hkind
  rcases mem_edit hdot hshape h with ⟨rfl, hstays⟩ | hmoves
  · exact .inl ⟨he, hstays⟩
  · exact .inr ⟨e, he, hmoves⟩

theorem attributed_edited :
    Attributed { unit with children := r.edited unit seen } where
  kind := hunit.kind
  inner := by
    intro c hc
    rcases mem_edited hdot hunit hc with
      ⟨hc, _⟩ | ⟨_, _, n, n', _, _, rfl, _, _, ⟨⟩, hkind, hshape, _⟩
    · exact hunit.inner c hc
    · exact everywhere_clause hshape hkind (fun m hm => by rw [hm]; decide)
        fun m hm => by rw [hm]; decide
  calls := by
    intro c hc
    rcases mem_edited hdot hunit hc with
      ⟨hc, _⟩ | ⟨_, _, n, n', _, _, rfl, _, _, ⟨⟩, hkind, hshape, _⟩
    · exact hunit.calls c hc
    · exact everywhere_clause hshape hkind (fun m hm _ hcall => by rw [hm] at hcall; cases hcall)
        fun m hm _ hcall => by rw [hm] at hcall; cases hcall
  clauses := by
    intro c hc hkind
    rcases mem_edited hdot hunit hc with
      ⟨hc, _⟩ | ⟨_, _, n, n', _, _, rfl, _, _, ⟨⟩, _, hshape, _⟩
    · exact hunit.clauses c hc hkind
    · exact hshape

theorem flatMap_edited {α : Type} {g : Element → List α}
    (hclause : ∀ n parts, ClauseShaped n → staticImportParts? n = some parts → g (.node n) = []) :
    (r.edited unit seen).flatMap g = unit.children.flatMap g := by
  rw [edited, List.flatMap_assoc]
  refine List.flatMap_congr fun e he => ?_
  by_cases himport : ∃ n parts, e = .node n ∧ staticImportParts? n = some parts
  · obtain ⟨n, parts, rfl, hparts⟩ := himport
    have hshape := hunit.clauses n he (kind_of_parts hparts)
    rw [hclause n parts hshape hparts, List.flatMap_eq_nil_iff]
    intro e' he'
    rcases mem_edit hdot (fun m hm hk => hunit.clauses m (hm ▸ he) hk) he' with
      ⟨rfl, _⟩ | ⟨_, n', _, _, _, _, _, rfl, _, hshape', hparts', _⟩
    · exact hclause n parts hshape hparts
    · exact hclause n' _ hshape' hparts'
  · rw [replaceChild_other fun n parts hn hparts => himport ⟨n, parts, hn, hparts⟩,
      Option.getD_none, List.flatMap_singleton]

/-- What is picked out of the nodes stays, where nothing is picked out of clauses. -/
theorem filterMap_edited {α : Type} {f : Node → Option α}
    (hclause : ∀ n, n.kind = .java .importClause → f n = none)
    (hname : ∀ n, n.kind = .java .qualifiedName → f n = none) :
    (Node.preorderList (r.edited unit seen)).filterMap f =
      (Node.preorderList unit.children).filterMap f := by
  have hflat : ∀ es, (Node.preorderList es).filterMap f =
      es.flatMap fun e => e.preorder.filterMap f := by
    intro es
    induction es with
    | nil => rfl
    | cons e es ih => rw [Node.preorderList, List.filterMap_append, ih, List.flatMap_cons]
  rw [hflat, hflat]
  refine flatMap_edited hdot hunit fun n parts hshape hparts => ?_
  rw [List.filterMap_eq_nil_iff]
  exact everywhere_clause hshape (kind_of_parts hparts) hclause hname

theorem staticCallsIn_edited :
    staticCallsIn (r.edited unit seen) = staticCallsIn unit.children :=
  filterMap_edited hdot hunit (fun m hm => staticCall_of_kind (by rw [hm]; decide))
    fun m hm => staticCall_of_kind (by rw [hm]; decide)

end

theorem exists_moved {unit n : Node} {owner member : String} (hdot : '.' ∉ r.newName.toList)
    (hunit : Attributed unit) (hrenamed : seen.renamed = []) (hn : Element.node n ∈ unit.children)
    (hparts : staticImportParts? n = some (owner, member)) (hmember : member ≠ "*")
    (hfree : member ∉ seen.kept) (hselects : r.selectsImport owner member = true) :
    ∃ n', Element.node n' ∈ r.edited unit seen ∧ n'.kind = .java .importClause ∧
      staticImportParts? n' = some (owner, r.newName) := by
  have hkind := kind_of_parts hparts
  obtain ⟨n', hn', hkind', _, hparts'⟩ :=
    withImportMember_of_parts (hunit.clauses n hn hkind) hkind hparts hmember hdot
  refine ⟨n', List.mem_flatMap.2 ⟨_, hn, ?_⟩, hkind', hparts'⟩
  have hnone : r.renamedHere seen owner member = false := by
    rw [renamedHere, hrenamed]
    rfl
  rw [replaceChild, hparts]
  simp [hmember, replaceImport, hnone, hfree, hselects, hn']

theorem imports_isSome_iff {unit : Node} (hdot : '.' ∉ r.newName.toList)
    (hunit : Attributed unit) (hrenamed : seen.renamed = []) :
    (r.imports unit seen).isSome = true ↔
      ∃ n owner member, Element.node n ∈ unit.children ∧
        staticImportParts? n = some (owner, member) ∧ member ≠ "*" ∧ member ∉ seen.kept ∧
          r.selectsImport owner member = true := by
  rw [isSome_imports]
  constructor
  · rintro ⟨e, he, hedit⟩
    cases e with
    | token t => cases hedit
    | node n =>
        obtain ⟨owner, member, h⟩ := (edit_isSome hdot hrenamed (hunit.clauses n he)).1 hedit
        exact ⟨n, owner, member, he, h⟩
  · rintro ⟨n, owner, member, hn, h⟩
    exact ⟨_, hn, (edit_isSome hdot hrenamed (hunit.clauses n hn)).2 ⟨owner, member, h⟩⟩

/-! ### One application -/

/-- The pass of the recipe. -/
def pass (r : Renaming) : Recipe.Pass :=
  Recipe.passOf r.visitor {}

theorem inner_of_attributed {unit : Node} (hunit : Attributed unit) :
    ∀ c, Element.node c ∈ unit.children → c.Everywhere Inner :=
  fun c hc m hm => ⟨hunit.inner c hc m hm, hunit.calls c hc m hm⟩

/-- The children of an attributed unit are swept to those of one. -/
theorem attributed_swept {unit : Node} {es' : List Element} {below : Bool} {seen : Seen}
    (hunit : Attributed unit) (hall : r.SwapAll unit.children {} es' below seen) :
    Attributed { unit with children := es' } where
  kind := hunit.kind
  inner := fun c hc m hm => (hall.inner c hc m hm).1
  calls := fun c hc m hm => (hall.inner c hc m hm).2
  clauses := by
    intro c hc hkind
    refine hunit.clauses c ((hall.clauses (fun d hd hk => ?_) c hkind).1 hc) hkind
    exact settled_clause (hunit.clauses d hd hk) hk

theorem pass_run {unit : Node} (hunit : Attributed unit) :
    ∃ es' below seen, r.SwapAll unit.children {} es' below seen ∧
      Attributed { unit with children := es' } ∧
        (r.pass unit).getD unit =
            { unit with children := r.edited { unit with children := es' } seen } ∧
          (r.pass unit).isSome =
            (below || (r.imports { unit with children := es' } seen).isSome) := by
  have haccepts : r.visitor.accepts unit = true := by simp [visitor, Hooks.visitor, hunit.kind]
  obtain ⟨cursor, es', below, seen, hswept, hresult, hchanged, _⟩ :=
    Visitor.walk_left (fun _ _ _ => rfl) (leaves_swaps (r := r)) haccepts {}
  have hall := swapAll_of_swept hswept (inner_of_attributed hunit)
  rw [leave_unit (v := { unit with children := es' }) cursor seen hunit.kind] at hresult hchanged
  exact ⟨es', below, seen, hall, attributed_swept hunit hall,
    hresult.trans (imports_eq { unit with children := es' } seen), hchanged⟩

theorem staticCalls_unit {unit : Node} (hunit : Attributed unit) :
    staticCalls unit = staticCallsIn unit.children := by
  rw [staticCalls_eq, staticCall_of_kind (by rw [hunit.kind]; decide)]
  rfl

/-- What a sweep has seen, where nothing was seen before it. -/
theorem mem_kept {calls : List Signature} {name : String} (h : r.Collects calls {} seen) :
    name ∈ seen.kept ↔ ∃ m ∈ calls, r.applies m = false ∧ name = m.name := by
  rw [h.kept]
  simp

theorem renamed_eq_nil {calls : List Signature} (h : r.Collects calls {} seen)
    (hidle : ∀ m ∈ calls, r.applies m = false) : seen.renamed = [] := by
  refine List.eq_nil_iff_forall_not_mem.2 fun x hx => ?_
  obtain hx | ⟨m, hm, happlies, _⟩ := (h.renamed x).1 hx
  · cases hx
  · rw [hidle m hm] at happlies
    cases happlies

theorem exists_applies {calls : List Signature} {owner member : String}
    (h : r.Collects calls {} seen) (hrenamed : r.renamedHere seen owner member = true) :
    ∃ m ∈ calls, r.applies m = true := by
  obtain ⟨x, hx, _⟩ := List.any_eq_true.1 hrenamed
  obtain hx | ⟨m, hm, happlies, _⟩ := (h.renamed x).1 hx
  · cases hx
  · exact ⟨m, hm, happlies⟩

theorem applies_mem_renamed {calls : List Signature} :
    ∀ m ∈ calls.map r.renamed, r.applies m = false := by
  intro m hm
  obtain ⟨m', _, rfl⟩ := List.mem_map.1 hm
  exact applies_renamed m'

theorem mem_kept_renamed {calls : List Signature} {name : String}
    (h : r.Collects (calls.map r.renamed) {} seen) :
    name ∈ seen.kept ↔ ∃ m ∈ calls, name = (r.renamed m).name := by
  rw [mem_kept h]
  constructor
  · rintro ⟨m, hm, _, rfl⟩
    obtain ⟨m', hm', rfl⟩ := List.mem_map.1 hm
    exact ⟨m', hm', rfl⟩
  · rintro ⟨m, hm, rfl⟩
    exact ⟨r.renamed m, List.mem_map_of_mem hm, applies_renamed m, rfl⟩

theorem name_of_idle {m : Signature} (h : r.applies m = false) : (r.renamed m).name = m.name := by
  rw [renamed, if_neg (by simp [h])]

section
variable {unit : Node} {es' : List Element} {seen seen' : Seen}
  (hdot : '.' ∉ r.newName.toList) (hstar : r.newName ≠ "*")
  (hswept : Attributed { unit with children := es' })
  (hclauses : ∀ c, c.kind = .java .importClause →
    (Element.node c ∈ es' ↔ Element.node c ∈ unit.children))
  (hseen : r.Collects (staticCalls unit) {} seen)
  (hseen' : r.Collects ((staticCalls unit).map r.renamed) {} seen')
include hdot hswept hclauses hseen hseen'

theorem restless_of_imports
    (h : (r.imports { unit with children := r.edited { unit with children := es' } seen }
      seen').isSome = true) : Restless r unit := by
  have hstays : ∀ name, name ∈ seen.kept → name ∈ seen'.kept := by
    intro name hname
    obtain ⟨m, hm, happlies, rfl⟩ := (mem_kept hseen).1 hname
    exact (mem_kept_renamed hseen').2 ⟨m, hm, (name_of_idle happlies).symm⟩
  rw [imports_isSome_iff hdot (attributed_edited hdot hswept)
    (renamed_eq_nil hseen' applies_mem_renamed)] at h
  obtain ⟨n₂, owner₂, member₂, hn₂, hparts₂, hstar₂, hkept₂, hselects₂⟩ := h
  rcases mem_edited hdot hswept hn₂ with
    ⟨_, hreason⟩ | ⟨_, hn, n, _, owner, member, rfl, hparts, hmember, ⟨⟩, _, _, hparts', hwhy⟩
  · -- An import that stayed has a reason to stay again.
    rcases hreason n₂ owner₂ member₂ rfl hparts₂ hstar₂ with hused | ⟨_, hunselected⟩
    · exact absurd (hstays _ hused) hkept₂
    · rw [hunselected] at hselects₂
      cases hselects₂
  · rw [hparts'] at hparts₂
    cases hparts₂
    have hidle : ∀ m ∈ staticCalls unit, r.applies m = false := by
      intro m hm
      by_contra happlies
      refine hkept₂ ((mem_kept_renamed hseen').2 ⟨m, hm, ?_⟩)
      rw [renamed, if_pos (by simpa using happlies)]
    rw [selectsImport, Bool.and_eq_true] at hselects₂
    refine ⟨hselects₂.2, hidle, fun m hm heq => ?_, n, _, member, ?_, hparts, hmember, ?_⟩
    · exact hkept₂ ((mem_kept_renamed hseen').2
        ⟨m, hm, by rw [name_of_idle (hidle m hm), heq]⟩)
    · exact (hclauses n (kind_of_parts hparts)).1 hn
    · rcases hwhy with hrenamed | ⟨hfree, hselects⟩
      · obtain ⟨m, hm, happlies⟩ := exists_applies hseen hrenamed
        rw [hidle m hm] at happlies
        cases happlies
      · exact ⟨hselects, fun m hm heq =>
          hfree ((mem_kept hseen).2 ⟨m, hm, hidle m hm, heq.symm⟩)⟩

include hstar

theorem imports_of_restless (h : Restless r unit) :
    (r.imports { unit with children := r.edited { unit with children := es' } seen }
      seen').isSome = true := by
  obtain ⟨hselectsNew, hidle, hunused, n, owner, member, hn, hparts, hmember, hselects, hfree⟩ := h
  rw [imports_isSome_iff hdot (attributed_edited hdot hswept)
    (renamed_eq_nil hseen' applies_mem_renamed)]
  have hkind := kind_of_parts hparts
  have hfree' : member ∉ seen.kept := fun h => by
    obtain ⟨m, hm, _, heq⟩ := (mem_kept hseen).1 h
    exact hfree m hm heq.symm
  have hn' : Element.node n ∈ es' := (hclauses n hkind).2 hn
  obtain ⟨n', hn'mem, hkind', hparts'⟩ :=
    exists_moved hdot hswept (renamed_eq_nil hseen hidle) hn' hparts hmember hfree' hselects
  rw [selectsImport, Bool.and_eq_true] at hselects
  refine ⟨n', owner, r.newName, hn'mem, hparts', hstar, fun h => ?_, ?_⟩
  · obtain ⟨m, hm, heq⟩ := (mem_kept_renamed hseen').1 h
    rw [name_of_idle (hidle m hm)] at heq
    exact hunused m hm heq.symm
  · rw [selectsImport, hselects.1, hselectsNew]
    rfl

theorem restless_iff :
    (r.imports { unit with children := r.edited { unit with children := es' } seen }
        seen').isSome = true ↔ Restless r unit :=
  ⟨restless_of_imports hdot hswept hclauses hseen hseen',
    imports_of_restless hdot hstar hswept hclauses hseen hseen'⟩

end

theorem restless_of_restless {unit unit' : Node} (hstar : r.newName ≠ "*")
    (hcalls : staticCalls unit' = (staticCalls unit).map r.renamed) (h : Restless r unit)
    (hmoved : ∀ n owner member, Element.node n ∈ unit.children →
      staticImportParts? n = some (owner, member) → member ≠ "*" →
        (∀ m ∈ staticCalls unit, m.name ≠ member) → r.selectsImport owner member = true →
          ∃ n', Element.node n' ∈ unit'.children ∧
            staticImportParts? n' = some (owner, r.newName)) : Restless r unit' := by
  have hsame : staticCalls unit' = staticCalls unit := by
    rw [hcalls]
    refine (List.map_congr_left fun m hm => ?_).trans (List.map_id _)
    rw [renamed, if_neg (by simp [h.idle m hm])]
    rfl
  obtain ⟨n, owner, member, hn, hparts, hmember, hselects, hfree⟩ := h.clause
  obtain ⟨n', hn', hparts'⟩ := hmoved n owner member hn hparts hmember hfree hselects
  rw [selectsImport, Bool.and_eq_true] at hselects
  refine ⟨h.selectsNew, hsame ▸ h.idle, hsame ▸ h.unused, n', owner, r.newName, hn', hparts', hstar,
    ?_, hsame ▸ h.unused⟩
  rw [selectsImport, hselects.1, h.selectsNew]
  rfl

theorem pass_settles {unit : Node} (hdot : '.' ∉ r.newName.toList) (hstar : r.newName ≠ "*")
    (hunit : Attributed unit) :
    let unit' := (r.pass unit).getD unit
    Attributed unit' ∧ ((r.pass unit').isSome = true ↔ Restless r unit) ∧
      (Restless r unit → (r.pass unit).isSome = true ∧ Restless r unit') := by
  obtain ⟨es', below, seen, hall, hswept, hresult, hchanged⟩ := pass_run hunit
  rw [hresult]
  have hedited : Attributed { unit with children := r.edited { unit with children := es' } seen } :=
    attributed_edited hdot hswept
  have hcalls : staticCalls { unit with children := r.edited { unit with children := es' } seen } =
      (staticCalls unit).map r.renamed := by
    rw [staticCalls_unit hedited, staticCalls_unit hunit, ← hall.calls]
    exact staticCallsIn_edited hdot hswept
  have hseen : r.Collects (staticCalls unit) {} seen := by
    rw [staticCalls_unit hunit]
    exact hall.collects
  have hclauses := hall.clauses fun c hc hkind => settled_clause (hunit.clauses c hc hkind) hkind
  refine ⟨hedited, ?_, fun h => ⟨?_, ?_⟩⟩
  · obtain ⟨es'', below', seen', hall', _, _, hchanged'⟩ := pass_run hedited
    have hsettled : ∀ c, Element.node c ∈ r.edited { unit with children := es' } seen →
        c.Everywhere r.Settled := by
      intro c hc
      rcases mem_edited hdot hswept hc with
        ⟨hc, _⟩ | ⟨_, _, n, n', _, _, rfl, _, _, ⟨⟩, hkind, hshape, _⟩
      · exact hall.settled c hc
      · exact settled_clause hshape hkind
    have hbelow := hall'.stays hsettled
    rw [hchanged', hbelow, hall'.same hbelow, Bool.false_or]
    refine restless_iff hdot hstar hswept hclauses hseen ?_
    rw [← hcalls, staticCalls_unit hedited]
    exact hall'.collects
  · obtain ⟨n, owner, member, hn, hparts, hmember, hselects, hfree⟩ := h.clause
    have hedit := (imports_isSome_iff hdot hswept (renamed_eq_nil hseen h.idle)).2
      ⟨n, owner, member, (hclauses n (kind_of_parts hparts)).2 hn, hparts, hmember, fun hkept => by
        obtain ⟨m, hm, _, heq⟩ := (mem_kept hseen).1 hkept
        exact hfree m hm heq.symm, hselects⟩
    rw [hchanged, hedit, Bool.or_true]
  · refine restless_of_restless hstar hcalls h ?_
    intro n owner member hn hparts hmember hfree hselects
    have hn' : Element.node n ∈ es' := (hclauses n (kind_of_parts hparts)).2 hn
    obtain ⟨n', hmem, _, hparts'⟩ := exists_moved hdot hswept (renamed_eq_nil hseen h.idle) hn'
      hparts hmember (fun hkept => by
        obtain ⟨m, hm, _, heq⟩ := (mem_kept hseen).1 hkept
        exact hfree m hm heq.symm) hselects
    exact ⟨n', hmem, hparts'⟩

end Renaming

/-! ### The recipe -/

theorem dot_of_isJavaIdentifier {name : String} (h : Recipe.isJavaIdentifier name = true) :
    '.' ∉ name.toList ∧ name ≠ "*" := by
  rw [Recipe.isJavaIdentifier] at h
  split at h
  · cases h
  · rename_i c rest hname
    simp only [Bool.and_eq_true, List.all_eq_true] at h
    obtain ⟨⟨hc, hrest⟩, _⟩ := h
    constructor
    · rw [hname]
      intro hdot
      rcases List.mem_cons.1 hdot with rfl | hdot
      · exact absurd hc (by decide +kernel)
      · exact absurd (hrest _ hdot) (by decide +kernel)
    · rintro rfl
      obtain rfl : '*' = c := by
        have heq : ['*'] = c :: rest := hname
        exact (List.cons.inj heq).1
      exact absurd hc (by decide +kernel)

theorem keyword_of_isJavaIdentifier {name : String} (h : Recipe.isJavaIdentifier name = true) :
    isKeyword name = false := by
  rw [Recipe.isJavaIdentifier] at h
  split at h
  · cases h
  · simp only [Bool.and_eq_true, Bool.not_eq_true'] at h
    exact h.2

theorem check_eq_none {recipe : Recipe} {o : Recipe.RecipeOption} (h : recipe.validate = [])
    (ho : o ∈ recipe.options) : o.check = none := by
  obtain ⟨name, description, options, failures, pass?, children⟩ := recipe
  rw [Recipe.validate, List.append_eq_nil_iff, Recipe.ownFailures, List.append_eq_nil_iff,
    List.filterMap_eq_nil_iff] at h
  exact Option.map_eq_none_iff.1 (h.1.1 o ho)

theorem identifier_of_valid {pattern newName : Option String}
    (h : (changeMethodName pattern newName).validate = []) :
    ∃ r, renaming? pattern newName = some r ∧ Recipe.isJavaIdentifier r.newName = true := by
  have hpattern := check_eq_none (o := ⟨"method_pattern", true, pattern.map .text, .methodPattern⟩)
    h (by simp [changeMethodName])
  have hname := check_eq_none (o := ⟨"new_method_name", true, newName.map .text, .javaIdentifier⟩)
    h (by simp [changeMethodName])
  cases pattern with
  | none => cases hpattern
  | some pattern =>
      cases newName with
      | none => cases hname
      | some newName =>
          simp only [Recipe.RecipeOption.check, Option.map_some, Recipe.Constraint.check,
            Recipe.Constraint.checkText] at hpattern hname
          split at hpattern
          · rename_i parsed hparsed
            split_ifs at hname with hvalid
            refine ⟨⟨parsed, newName⟩, ?_, hvalid⟩
            rw [renaming?]
            simp [hparsed, Except.toOption]
          · cases hpattern

theorem renaming_of_valid {pattern newName : Option String}
    (h : (changeMethodName pattern newName).validate = []) :
    ∃ r, renaming? pattern newName = some r ∧ '.' ∉ r.newName.toList ∧ r.newName ≠ "*" := by
  obtain ⟨r, hr, hidentifier⟩ := identifier_of_valid h
  exact ⟨r, hr, dot_of_isJavaIdentifier hidentifier⟩

theorem apply_eq {pattern newName : Option String} {r : Renaming}
    (h : renaming? pattern newName = some r) (root : Node) :
    (changeMethodName pattern newName).apply ⟨root, []⟩ =
      match r.pass root with
      | some changed => ⟨changed, ["ChangeMethodName"]⟩
      | none => ⟨root, []⟩ := by
  rw [changeMethodName, Recipe.apply, Recipe.applyAll, Recipe.applyOwn, h]
  rfl

/-- The unit that one application leaves. -/
theorem root_apply {pattern newName : Option String} {r : Renaming}
    (h : renaming? pattern newName = some r) (root : Node) :
    ((changeMethodName pattern newName).apply ⟨root, []⟩).root = (r.pass root).getD root := by
  rw [apply_eq h]
  cases r.pass root <;> rfl

theorem passes_diverged {pattern newName : Option String} {r : Renaming}
    (h : renaming? pattern newName = some r) (hdot : '.' ∉ r.newName.toList)
    (hstar : r.newName ≠ "*") (left done : Nat) (names : List String) {unit : Node}
    (hunit : Attributed unit) (hrestless : Restless r unit) :
    Engine.passesOver [changeMethodName pattern newName] done names left unit =
      .diverged "ChangeMethodName" := by
  induction left generalizing done names unit with
  | zero =>
      obtain ⟨_, _, hnext⟩ := Renaming.pass_settles hdot hstar hunit
      obtain ⟨hsome, _⟩ := hnext hrestless
      obtain ⟨changed, hchanged⟩ := Option.isSome_iff_exists.1 hsome
      have happly := apply_eq h unit
      rw [hchanged, ← Recipe.applyAll_single] at happly
      unfold Engine.passesOver
      rw [happly]
  | succ left ih =>
      obtain ⟨hunit', _, hnext⟩ := Renaming.pass_settles hdot hstar hunit
      obtain ⟨hsome, hrestless'⟩ := hnext hrestless
      obtain ⟨changed, hchanged⟩ := Option.isSome_iff_exists.1 hsome
      rw [hchanged] at hunit' hrestless'
      have happly := apply_eq h unit
      rw [hchanged, ← Recipe.applyAll_single] at happly
      unfold Engine.passesOver
      rw [happly]
      exact ih _ _ hunit' hrestless'

theorem passes_converged {pattern newName : Option String} {r : Renaming}
    (h : renaming? pattern newName = some r) (hdot : '.' ∉ r.newName.toList)
    (hstar : r.newName ≠ "*") {left : Nat} (hleft : 1 ≤ left) {unit : Node}
    (hunit : Attributed unit) (hrest : ¬ Restless r unit) :
    ∃ root names cycles, Engine.passesOver [changeMethodName pattern newName] 0 [] left unit =
      .converged root names cycles := by
  obtain ⟨left, rfl⟩ := Nat.exists_eq_add_of_le' hleft
  cases hpass : r.pass unit with
  | none =>
      refine ⟨unit, [], 1, ?_⟩
      have happly := apply_eq h unit
      rw [hpass, ← Recipe.applyAll_single] at happly
      unfold Engine.passesOver
      rw [happly]
  | some changed =>
      obtain ⟨_, hagain, _⟩ := Renaming.pass_settles hdot hstar hunit
      rw [hpass] at hagain
      have hnone : r.pass changed = none := by
        refine Option.not_isSome_iff_eq_none.1 fun hsome => hrest (hagain.1 hsome)
      refine ⟨changed, Engine.addNew [] ["ChangeMethodName"], 2, ?_⟩
      have happly := apply_eq h unit
      have happly' := apply_eq h changed
      rw [hpass, ← Recipe.applyAll_single] at happly
      rw [hnone, ← Recipe.applyAll_single] at happly'
      unfold Engine.passesOver
      rw [happly]
      show Engine.passesOver _ 1 _ left changed = _
      unfold Engine.passesOver
      rw [happly']

/-- A second application of the recipe to its own result changes nothing, and a run of it alone
comes to rest, exactly if the unit is not restless. -/
theorem changeMethodName_settles_iff {pattern newName : Option String}
    (hvalid : (changeMethodName pattern newName).validate = []) {source : String} {unit : Node}
    (hparse : parseUnit source = .ok unit) (symbols : SymbolTable) :
    ∃ r, renaming? pattern newName = some r ∧
      let recipe := changeMethodName pattern newName
      let root := attributeUnit symbols unit
      let once := (recipe.apply ⟨root, []⟩).root
      (recipe.apply ⟨once, []⟩ = ⟨once, []⟩ ↔ ¬ Restless r root) ∧
        ∀ (settings : Engine.Settings) (path : String),
          Engine.runFile settings [recipe] ⟨path, source, root⟩ =
              .error (.nonConvergence path "ChangeMethodName" settings.maxCycles) ↔
            Restless r root := by
  obtain ⟨r, hr, hdot, hstar⟩ := renaming_of_valid hvalid
  obtain ⟨hunit, hprint⟩ := attributed_of_parseUnit hparse symbols
  refine ⟨r, hr, ?_, fun settings path => ?_⟩
  · obtain ⟨_, hagain, _⟩ := Renaming.pass_settles hdot hstar hunit
    rw [root_apply hr, apply_eq hr, ← hagain]
    cases hpass : r.pass ((r.pass (attributeUnit symbols unit)).getD (attributeUnit symbols unit)) with
    | none => simp
    | some changed => simp
  · have hsame : ((attributeUnit symbols unit).print != source) = false := by simp [hprint]
    constructor
    · intro herror
      by_contra hrest
      obtain ⟨root, names, cycles, hpasses⟩ :=
        passes_converged hr hdot hstar settings.one_le_maxCycles hunit hrest
      rw [Engine.runFile_eq] at herror
      simp only [hsame, hpasses] at herror
      cases herror
    · intro hrestless
      have hpasses := passes_diverged hr hdot hstar settings.maxCycles 0 [] hunit hrestless
      rw [Engine.runFile_eq]
      simp only [hsame, hpasses]
      rfl

/-- The one import of the unit is renamed from `bar` to `bar` again, pass after pass. -/
theorem changeMethodName_settles_iff_wildcard :
    let recipe := changeMethodName (some "com.abc.B *(..)") (some "bar")
    ∃ unit, parseUnit "import static com.abc.B.foo;\nclass A \x7b\x7d\n" = .ok unit ∧
      let once := (recipe.apply ⟨attributeUnit {} unit, []⟩).root
      recipe.apply ⟨once, []⟩ ≠ ⟨once, []⟩ ∧
        Engine.runFile {} [recipe]
            ⟨"A.java", "import static com.abc.B.foo;\nclass A \x7b\x7d\n", attributeUnit {} unit⟩ =
          .error (.nonConvergence "A.java" "ChangeMethodName" 3) := by
  intro recipe
  have hvalid : (changeMethodName (some "com.abc.B *(..)") (some "bar")).validate = [] := by
    decide +kernel
  have hparses : (parseUnit "import static com.abc.B.foo;\nclass A \x7b\x7d\n").toOption.any
      (fun unit => (recipe.apply
        ⟨(recipe.apply ⟨attributeUnit {} unit, []⟩).root, []⟩).changedBy.isEmpty == false)
        = true := by
    decide +kernel
  cases hunit : parseUnit "import static com.abc.B.foo;\nclass A \x7b\x7d\n" with
  | error e =>
      rw [hunit] at hparses
      cases hparses
  | ok unit =>
      obtain ⟨r, -, hagain, hrun⟩ := changeMethodName_settles_iff hvalid hunit {}
      have hmoves : recipe.apply ⟨(recipe.apply ⟨attributeUnit {} unit, []⟩).root, []⟩ ≠
          ⟨(recipe.apply ⟨attributeUnit {} unit, []⟩).root, []⟩ := by
        intro hsame
        rw [hunit] at hparses
        simp [Except.toOption, hsame] at hparses
      have hrestless := by_contra fun hrest => hmoves (hagain.2 hrest)
      exact ⟨unit, rfl, hmoves, (hrun {} "A.java").2 hrestless⟩

end Codemod.Recipes.MethodName
