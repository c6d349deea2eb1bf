import Codemod.Proofs.Recipes.MethodAttribution

/-!
Static imports that the recipe which renames methods takes away. The main statement says which they
are, and what becomes of the calls without receiver that still have the name of the member: no call
that resolved through a static import is among them, but a call that did not resolve at all may be,
since nothing is seen of it on the walk.
-/

namespace Codemod.Recipes.MethodName

open Codemod.Tree Codemod.Java

/-- The owners and members of the static imports of a unit. -/
def staticImports (unit : Node) : List (String × String) :=
  unit.childNodes.filterMap staticImportParts?

/-- The node is a call without a receiver. -/
def isFreeCall (n : Node) : Bool :=
  n.kind == .java .methodInvocation && (receiver? n).isNone

/-- The calls without a receiver in a tree. -/
def freeCalls (n : Node) : List Node :=
  n.preorder.filter isFreeCall

theorem mem_freeCalls {n call : Node} :
    call ∈ freeCalls n ↔
      call ∈ n.preorder ∧ call.kind = .java .methodInvocation ∧ receiver? call = none := by
  simp [freeCalls, isFreeCall]

theorem freeCalls_unit {unit : Node} (hkind : unit.kind = .java .compilationUnit) :
    freeCalls unit = (Node.preorderList unit.children).filter isFreeCall := by
  obtain ⟨kind, lead, children, markers, type?⟩ := unit
  rw [freeCalls, Node.preorder, List.filter_cons_of_neg]
  have hunit : kind = .java .compilationUnit := hkind
  simp [isFreeCall, hunit]

namespace Renaming

variable {r : Renaming} {seen : Seen}

/-! ### Calls -/

theorem preorder_respell (n : Node) : (r.respell n).preorder = n.preorder.map r.respell := by
  have hnodes : ∀ m : Node, m.preorder = m :: m.childNodes.flatMap Node.preorder := by
    rintro ⟨kind, lead, children, markers, type?⟩
    rw [Node.preorder, preorderList_eq]
    rfl
  induction n using Node.induction_on with
  | step n ih =>
      rw [hnodes, hnodes n, (respelling_respell r).childNodes, List.flatMap_map, List.map_cons,
        List.map_flatMap]
      exact congrArg (r.respell n :: ·)
        (List.flatMap_congr fun c hc => ih c (mem_childNodes.1 hc))

theorem freeCalls_pass {unit : Node} (hdot : '.' ∉ r.newName.toList) (hunit : Attributed unit) :
    freeCalls ((r.pass unit).getD unit) = (freeCalls unit).map r.respell := by
  obtain ⟨seen, _, hrespelled, hpass⟩ := pass_eq (r := r) hunit
  have hedited : (Node.preorderList (r.edited (r.respell unit) seen)).filterMap
      (Option.guard isFreeCall) =
        (Node.preorderList (r.respell unit).children).filterMap (Option.guard isFreeCall) :=
    filterMap_edited hdot hrespelled (fun n hn => by simp [Option.guard, isFreeCall, hn])
      fun n hn => by simp [Option.guard, isFreeCall, hn]
  rw [List.filterMap_eq_filter] at hedited
  have hfree : ∀ n, isFreeCall (r.respell n) = isFreeCall n := by
    intro n
    rw [isFreeCall, kind_respell, receiver_respell, Option.isNone_map]
    rfl
  calc freeCalls ((r.pass unit).getD unit)
      = (Node.preorderList (r.edited (r.respell unit) seen)).filter isFreeCall := by
        rw [hpass]
        exact freeCalls_unit hrespelled.kind
    _ = (Node.preorderList (r.respell unit).children).filter isFreeCall := hedited
    _ = freeCalls (r.respell unit) := (freeCalls_unit hrespelled.kind).symm
    _ = (freeCalls unit).map r.respell := by
        rw [freeCalls, preorder_respell, List.filter_map]
        exact congrArg (List.map r.respell)
          (congrArg (List.filter · unit.preorder) (funext hfree))

/-! ### Imports -/

/-- An import of one member is taken away: no call through a static import keeps the name, and a
renamed call or the pattern asks for another. -/
structure Loses (r : Renaming) (unit : Node) (owner member : String) : Prop where
  ne_newName : member ≠ r.newName
  unused : ∀ m ∈ staticCalls unit, m.name = member → r.applies m = true
  reason :
    (∃ m ∈ staticCalls unit, r.applies m = true ∧ m.name = member ∧
        (m.declaringType = owner ∨ r.pattern.selectsOwner owner = true)) ∨
      r.selectsImport owner member = true

theorem mem_movedImports {imports : List (String × String)} {owner member : String}
    (h : (owner, member) ∈ imports) (hstar : member ≠ "*") :
    (owner, member) ∉ r.movedImports seen imports ↔
      member ≠ r.newName ∧ member ∉ seen.kept ∧
        (r.renamedHere seen owner member = true ∨ r.selectsImport owner member = true) := by
  rw [movedImports, List.mem_flatMap]
  constructor
  · intro hlost
    have hself : (owner, member) ∉ r.movedParts seen imports (owner, member) :=
      fun hmem => hlost ⟨_, h, hmem⟩
    have hstays := mt mem_movedParts_self hself
    simp only [not_or, not_and, Bool.not_eq_false] at hstays
    obtain ⟨-, hkept, hreason⟩ := hstays
    refine ⟨?_, hkept, ?_⟩
    · rintro rfl
      refine hself ?_
      rw [movedParts]
      split_ifs <;> simp
    · by_cases hrenamed : r.renamedHere seen owner member = true
      · exact .inl hrenamed
      · exact .inr (hreason (by simpa using hrenamed))
  · rintro ⟨hne, hkept, hreason⟩ ⟨parts, hparts, hmoved⟩
    rcases of_mem_movedParts hmoved with rfl | ⟨heq, -, -⟩
    · have hmoves : (r.renamedHere seen owner member ||
          (!seen.kept.contains member && r.selectsImport owner member)) = true := by
        simpa [hkept] using hreason
      simp only [movedParts, beq_iff_eq, hstar, if_false] at hmoved
      rw [if_neg (by simp [hkept]), if_pos hmoves, List.mem_singleton] at hmoved
      exact hne (congrArg Prod.snd hmoved)
    · exact hne (congrArg Prod.snd heq)

theorem staticImports_respell {unit : Node} (hregular : unit.Everywhere Regular) :
    staticImports (r.respell unit) = staticImports unit := by
  rw [staticImports, (respelling_respell r).childNodes, List.filterMap_map]
  exact List.filterMap_congr fun c hc => (respelling_respell r).staticImportParts
    ((everywhere_iff.1 hregular).2 c (mem_childNodes.1 hc))

theorem renamedHere_iff {calls : List Signature} {owner member : String}
    (h : r.Collects calls {} seen) :
    r.renamedHere seen owner member = true ↔
      ∃ m ∈ calls, r.applies m = true ∧ m.name = member ∧
        (m.declaringType = owner ∨ r.pattern.selectsOwner owner = true) := by
  simp only [renamedHere, List.any_eq_true, Bool.and_eq_true, Bool.or_eq_true, beq_iff_eq]
  constructor
  · rintro ⟨x, hx, hname, howner⟩
    obtain hx | ⟨m, hm, happlies, rfl⟩ := (h.renamed x).1 hx
    · cases hx
    · exact ⟨m, hm, happlies, hname, howner⟩
  · rintro ⟨m, hm, happlies, hname, howner⟩
    exact ⟨_, (h.renamed _).2 (.inr ⟨m, hm, happlies, rfl⟩), hname, howner⟩

theorem lost_iff {unit : Node} {owner member : String} (hdot : '.' ∉ r.newName.toList)
    (hunit : Attributed unit) (hregular : unit.Everywhere Regular)
    (himport : (owner, member) ∈ staticImports unit) (hstar : member ≠ "*") :
    (owner, member) ∉ staticImports ((r.pass unit).getD unit) ↔ r.Loses unit owner member := by
  obtain ⟨seen, hcollects, hrespelled, hpass⟩ := pass_eq (r := r) hunit
  have hsame := staticImports_respell (r := r) hregular
  have hmoved : staticImports ((r.pass unit).getD unit) =
      r.movedImports seen (staticImports unit) := by
    rw [hpass, ← hsame]
    exact staticImports_edited hdot hrespelled
  rw [← staticCalls_unit hunit] at hcollects
  have hkept : member ∉ seen.kept ↔ ∀ m ∈ staticCalls unit, m.name = member → r.applies m = true := by
    rw [mem_kept hcollects]
    simp only [not_exists, not_and]
    refine forall₂_congr fun m _ => ?_
    rw [imp_not_comm, Bool.not_eq_false, eq_comm]
  rw [hmoved, mem_movedImports himport hstar, hkept, renamedHere_iff hcollects]
  exact ⟨fun ⟨hne, hunused, hreason⟩ => ⟨hne, hunused, hreason⟩,
    fun h => ⟨h.ne_newName, h.unused, h.reason⟩⟩

theorem untyped_respell {call : Node} (h : call.type? = none) :
    (r.respell call).type? = none ∧ methodName? (r.respell call) = methodName? call := by
  rw [respell_of_untyped h]
  exact ⟨h, methodName_skeleton rfl (skeleton_mapNode kind_respell call.children)⟩

theorem call_of_loses {symbols : SymbolTable} {unit call : Node} {owner member : String}
    (hloses : r.Loses unit owner member) (hcall : call ∈ freeCalls unit)
    (hspelled : Spelled symbols call) (hname : methodName? (r.respell call) = some member) :
    (r.respell call).type? = none ∨
      ∃ m, (r.respell call).type? = some (.invocation m false) ∧ m.name = member := by
  obtain ⟨hmem, hkind, -⟩ := mem_freeCalls.1 hcall
  cases htype : call.type? with
  | none => exact .inl (untyped_respell htype).1
  | some info =>
      cases info with
      | type name =>
          have hclass := hspelled.type name htype
          rw [hkind] at hclass
          cases hclass
      | method m =>
          have hdeclaration := (hspelled.declaration m htype).1
          rw [hkind] at hdeclaration
          cases hdeclaration
      | invocation m via =>
          obtain ⟨htype', hname'⟩ :=
            carried_respell (r := r) (by rw [hkind]; decide) hspelled htype rfl
          obtain rfl : (r.renamed m).name = member := Option.some.inj (hname'.symm.trans hname)
          cases via with
          | false => exact .inr ⟨r.renamed m, htype', rfl⟩
          | true =>
              -- The call kept its name, so it would have kept the import.
              have hstatic : m ∈ staticCalls unit :=
                List.mem_filterMap.2 ⟨call, hmem, by simp [staticCall?, hkind, htype]⟩
              have hidle : r.applies m = false := by
                by_contra happlies
                refine hloses.ne_newName ?_
                rw [renamed, if_pos (by simpa using happlies)]
              have hself : r.renamed m = m := by rw [renamed, if_neg (by simp [hidle])]
              have happlies := hloses.unused m hstatic (by rw [hself])
              rw [hidle] at happlies
              cases happlies

end Renaming

/-- The static imports that the recipe takes away, and the calls without receiver that still have
the name of the member: each of them resolved in scope, but for those that attribution had left
unresolved under that name. -/
theorem lost_imports {pattern newName : Option String}
    (hvalid : (changeMethodName pattern newName).validate = []) {source : String} {unit : Node}
    (hparse : parseUnit source = .ok unit) (symbols : SymbolTable) :
    ∃ r, renaming? pattern newName = some r ∧
      let root := attributeUnit symbols unit
      let root' := ((changeMethodName pattern newName).apply ⟨root, []⟩).root
      ∀ owner member, (owner, member) ∈ staticImports root → member ≠ "*" →
        ((owner, member) ∉ staticImports root' ↔ r.Loses root owner member) ∧
          ((owner, member) ∉ staticImports root' →
            (∀ call ∈ freeCalls root', methodName? call = some member →
              call.type? = none ∨
                ∃ m, call.type? = some (.invocation m false) ∧ m.name = member) ∧
            ((∃ call ∈ freeCalls root', methodName? call = some member ∧ call.type? = none) ↔
              ∃ call ∈ freeCalls root, methodName? call = some member ∧ call.type? = none)) := by
  obtain ⟨r, hr, hdot, -⟩ := renaming_of_valid hvalid
  refine ⟨r, hr, ?_⟩
  intro root root' owner member himport hstar
  have hunit : Attributed root := (attributed_of_parseUnit hparse symbols).1
  have hlost : (owner, member) ∉ staticImports root' ↔ r.Loses root owner member := by
    rw [show root' = _ from root_apply hr root]
    exact Renaming.lost_iff hdot hunit (regular_attributeUnit hparse symbols) himport hstar
  have hcalls : freeCalls root' = (freeCalls root).map r.respell := by
    rw [show root' = _ from root_apply hr root]
    exact Renaming.freeCalls_pass hdot hunit
  have hspelled : ∀ call ∈ freeCalls root, Spelled symbols call := fun call hcall =>
    spelled_attributeUnit hparse symbols call (mem_freeCalls.1 hcall).1
  refine ⟨hlost, fun hgone => ?_⟩
  have hloses := hlost.1 hgone
  rw [hcalls]
  refine ⟨?_, ?_⟩
  · intro call' hcall' hname
    obtain ⟨call, hcall, rfl⟩ := List.mem_map.1 hcall'
    exact Renaming.call_of_loses hloses hcall (hspelled call hcall) hname
  · constructor
    · rintro ⟨call', hcall', hname, htype⟩
      obtain ⟨call, hcall, rfl⟩ := List.mem_map.1 hcall'
      rw [Renaming.type_respell (hspelled call hcall), Option.map_eq_none_iff] at htype
      rw [(Renaming.untyped_respell htype).2] at hname
      exact ⟨call, hcall, hname, htype⟩
    · rintro ⟨call, hcall, hname, htype⟩
      obtain ⟨htype', hname'⟩ := Renaming.untyped_respell (r := r) htype
      exact ⟨r.respell call, List.mem_map_of_mem hcall, hname'.trans hname, htype'⟩

/-- The call is to a class outside the source set, and the import that it needs is taken away. -/
theorem lost_imports_unresolved :
    let recipe := changeMethodName (some "com.ext.Lib foo(..)") (some "bar")
    let source := "import static com.ext.Lib.foo;\nclass A \x7b void t() \x7b foo(); \x7d \x7d\n"
    ∃ unit, parseUnit source = .ok unit ∧
      let root := attributeUnit (.ofUnits [unit]) unit
      let root' := (recipe.apply ⟨root, []⟩).root
      ("com.ext.Lib", "foo") ∈ staticImports root ∧ ("com.ext.Lib", "foo") ∉ staticImports root' ∧
        ∃ call ∈ freeCalls root', methodName? call = some "foo" ∧ call.type? = none := by
  intro recipe source
  have hvalid : recipe.validate = [] := by decide +kernel
  have hparses : (parseUnit source).toOption.any (fun unit =>
      let root := attributeUnit (.ofUnits [unit]) unit
      (staticImports root).contains ("com.ext.Lib", "foo") &&
        !(staticImports (recipe.apply ⟨root, []⟩).root).contains ("com.ext.Lib", "foo") &&
          (freeCalls root).any fun call =>
            methodName? call == some "foo" && call.type?.isNone) = true := by
    decide +kernel
  cases hunit : parseUnit source with
  | error e =>
      rw [hunit] at hparses
      cases hparses
  | ok unit =>
      simp only [hunit, Except.toOption, Option.any_some, Bool.and_eq_true, Bool.not_eq_true',
        ← Bool.not_eq_true, List.contains_iff_mem, List.any_eq_true, beq_iff_eq,
        Option.isNone_iff_eq_none] at hparses
      obtain ⟨⟨himport, hgone⟩, hcall⟩ := hparses
      obtain ⟨r, -, hlost⟩ := lost_imports hvalid hunit (.ofUnits [unit])
      obtain ⟨-, hcalls⟩ := hlost "com.ext.Lib" "foo" himport (by decide)
      exact ⟨unit, rfl, himport, hgone, (hcalls hgone).2.2 hcall⟩

end Codemod.Recipes.MethodName
