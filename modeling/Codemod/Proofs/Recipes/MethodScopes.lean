import Codemod.Proofs.Recipes.MethodSymbols

/-!
What a unit declares and imports behind a renaming. It declares the classes that it declared, with
selected methods under their new name, and imports what it imported, but for the static imports
that are edited.
-/

namespace Codemod.Recipes.MethodName

open Codemod.Tree Codemod.Java

namespace Renaming

variable {r : Renaming} {seen : Seen}

/-! ### Edited imports -/

/-- The owners and members of the imports that stand in place of a static import. -/
def movedParts (r : Renaming) (seen : Seen) (existing : List (String × String))
    (parts : String × String) : List (String × String) :=
  let stillUsed := seen.kept.contains parts.2
  let renamed := r.renamedHere seen parts.1 parts.2
  if parts.2 == "*" then [parts]
  else if renamed && stillUsed then
    if existing.contains (parts.1, r.newName) then [parts] else [parts, (parts.1, r.newName)]
  else if renamed || (!stillUsed && r.selectsImport parts.1 parts.2) then [(parts.1, r.newName)]
  else [parts]

/-- The owners and members of the edited static imports of a unit. -/
def movedImports (r : Renaming) (seen : Seen) (imports : List (String × String)) :
    List (String × String) :=
  imports.flatMap (r.movedParts seen imports)

/-- A static import is followed or replaced by one of the new name for a reason. -/
theorem of_mem_movedParts {existing : List (String × String)} {parts parts' : String × String}
    (h : parts' ∈ r.movedParts seen existing parts) :
    parts' = parts ∨ (parts' = (parts.1, r.newName) ∧ parts.2 ≠ "*" ∧
      (r.renamedHere seen parts.1 parts.2 = true ∨ r.selectsImport parts.1 parts.2 = true)) := by
  rw [movedParts] at h
  simp only [beq_iff_eq] at h
  split_ifs at h with hstar hboth hexisting hmoved
  · exact .inl (List.mem_singleton.1 h)
  · exact .inl (List.mem_singleton.1 h)
  · simp only [List.mem_cons, List.not_mem_nil, or_false] at h
    rw [Bool.and_eq_true] at hboth
    exact h.imp_right fun h => ⟨h, hstar, .inl hboth.1⟩
  · simp only [Bool.or_eq_true, Bool.and_eq_true] at hmoved
    exact .inr ⟨List.mem_singleton.1 h, hstar, hmoved.imp_right And.right⟩
  · exact .inl (List.mem_singleton.1 h)

/-- A static import stays where calls still need it, and where there is no reason to move it. -/
theorem mem_movedParts_self {existing : List (String × String)} {parts : String × String}
    (h : parts.2 = "*" ∨ parts.2 ∈ seen.kept ∨
      (r.renamedHere seen parts.1 parts.2 = false ∧ r.selectsImport parts.1 parts.2 = false)) :
    parts ∈ r.movedParts seen existing parts := by
  rw [movedParts]
  simp only [beq_iff_eq]
  split_ifs with hstar hboth hexisting hmoved
  · exact List.mem_singleton_self parts
  · exact List.mem_singleton_self parts
  · exact List.mem_cons_self
  · exfalso
    rw [Bool.and_eq_true, List.contains_iff_mem] at hboth
    simp only [Bool.or_eq_true, Bool.and_eq_true, Bool.not_eq_true', ← Bool.not_eq_true,
      List.contains_iff_mem] at hmoved
    rcases h with h | h | ⟨hrenamed, hselects⟩
    · exact hstar h
    · exact hmoved.elim (fun hrenamed => hboth ⟨hrenamed, h⟩) fun hfree => hfree.1 h
    · rw [hrenamed, hselects] at hmoved
      simp at hmoved
  · exact List.mem_singleton_self parts

theorem mem_movedParts_new {existing : List (String × String)} {parts : String × String}
    (hstar : parts.2 ≠ "*") (hexisting : (parts.1, r.newName) ∉ existing)
    (hrenamed : r.renamedHere seen parts.1 parts.2 = true) :
    (parts.1, r.newName) ∈ r.movedParts seen existing parts := by
  rw [movedParts]
  simp only [beq_iff_eq, hstar, if_false, hrenamed, Bool.true_and, Bool.true_or, if_true]
  split_ifs with hkept hcontains
  · exact absurd (List.contains_iff_mem.1 hcontains) hexisting
  · simp
  · simp

section
variable {existing : List (String × String)} {n n' : Node} {parts : String × String}

theorem replaceChild_static (hparts : staticImportParts? n = some parts)
    (hn' : withImportMember? n r.newName = some n') :
    (r.replaceChild seen existing (.node n)).getD [.node n] =
      let stillUsed := seen.kept.contains parts.2
      let renamed := r.renamedHere seen parts.1 parts.2
      if parts.2 == "*" then [.node n]
      else if renamed && stillUsed then
        if existing.contains (parts.1, r.newName) then [.node n]
        else [.node n, .node { n' with lead := "\n" ++ Text.indent n.lead }]
      else if renamed || (!stillUsed && r.selectsImport parts.1 parts.2) then [.node n']
      else [.node n] := by
  rw [replaceChild, hparts]
  simp only [replaceImport, hn', Option.map_some]
  split_ifs <;> rfl

/-- The parts of a child, if it is a static import. -/
def partsOf (e : Element) : List (String × String) :=
  (e.node?.bind staticImportParts?).toList

theorem partsOf_replaceChild (hdot : '.' ∉ r.newName.toList) {e : Element}
    (hshape : ∀ n, e = .node n → n.kind = .java .importClause → ClauseShaped n) :
    ((r.replaceChild seen existing e).getD [e]).flatMap partsOf =
      (partsOf e).flatMap (r.movedParts seen existing) := by
  by_cases himport : ∃ n parts, e = .node n ∧ staticImportParts? n = some parts
  · obtain ⟨n, parts, rfl, hparts⟩ := himport
    have hself : partsOf (.node n) = [parts] := by simp [partsOf, Element.node?, hparts]
    rw [hself, List.flatMap_singleton, movedParts]
    by_cases hstar : parts.2 = "*"
    · rw [replaceChild, hparts]
      simp [hstar, hself]
    · have hkind := kind_of_parts hparts
      obtain ⟨n', hn', _, _, hparts'⟩ :=
        withImportMember_of_parts (hshape n rfl hkind) hkind hparts hstar hdot
      have hmoved : ∀ lead, partsOf (.node { n' with lead }) = [(parts.1, r.newName)] := by
        intro lead
        have hsame : staticImportParts? { n' with lead } = some (parts.1, r.newName) := hparts'
        simp [partsOf, Element.node?, hsame]
      have hmoved' : partsOf (.node n') = [(parts.1, r.newName)] := by
        simp [partsOf, Element.node?, hparts']
      rw [replaceChild_static hparts hn']
      simp only
      split_ifs <;> simp [hself, hmoved, hmoved']
  · have hnone : partsOf e = [] := by
      rw [partsOf]
      cases hparts : e.node?.bind staticImportParts? with
      | none => rfl
      | some parts =>
          obtain ⟨n, hn, hparts⟩ := Option.bind_eq_some_iff.1 hparts
          refine absurd ⟨n, parts, ?_, hparts⟩ himport
          cases e with
          | node m => cases hn; rfl
          | token t => cases hn
    rw [replaceChild_other fun n parts hn hparts => himport ⟨n, parts, hn, hparts⟩]
    simp [hnone]

theorem filterMap_parts (es : List Element) :
    (es.filterMap Element.node?).filterMap staticImportParts? = es.flatMap partsOf := by
  rw [List.filterMap_filterMap, List.filterMap_eq_flatMap_toList]
  rfl

end

section
variable {unit : Node} (hdot : '.' ∉ r.newName.toList) (hunit : Attributed unit)
include hdot hunit

theorem staticImports_edited :
    ({ unit with children := r.edited unit seen } : Node).childNodes.filterMap staticImportParts? =
      r.movedImports seen (unit.childNodes.filterMap staticImportParts?) := by
  show (List.filterMap Element.node? (r.edited unit seen)).filterMap staticImportParts? = _
  rw [filterMap_parts, edited, movedImports, List.flatMap_assoc]
  generalize hexisting : unit.childNodes.filterMap staticImportParts? = existing
  rw [← hexisting, Node.childNodes, filterMap_parts, List.flatMap_assoc, ← filterMap_parts,
    ← Node.childNodes, hexisting]
  exact List.flatMap_congr fun e he => partsOf_replaceChild hdot fun n hn => hunit.clauses n (hn ▸ he)

theorem filter_edited {p : Node → Bool}
    (hp : ∀ n parts, staticImportParts? n = some parts → p n = false) :
    ({ unit with children := r.edited unit seen } : Node).childNodes.filter p =
      unit.childNodes.filter p := by
  have hflat : ∀ es : List Element, (es.filterMap Element.node?).filter p =
      es.flatMap fun e => (e.node?.filter p).toList := by
    intro es
    rw [← List.filterMap_eq_filter, List.filterMap_filterMap, List.filterMap_eq_flatMap_toList]
    refine List.flatMap_congr fun e _ => ?_
    cases e.node? with
    | none => rfl
    | some n => by_cases h : p n = true <;> simp [h, Option.guard, Option.filter]
  rw [Node.childNodes, Node.childNodes, hflat, hflat]
  refine flatMap_edited hdot hunit fun n parts _ hparts => ?_
  simp [Element.node?, hp n parts hparts]

theorem packageOf_edited :
    packageOf { unit with children := r.edited unit seen } = packageOf unit := by
  rw [packageOf, packageOf, Node.firstChild?, Node.firstChild?, ← List.head?_filter,
    ← List.head?_filter, filter_edited hdot hunit fun n parts hparts => ?_]
  rw [kind_of_parts hparts]
  rfl

theorem ofUnit_edited (known : List String) :
    Scope.ofUnit { unit with children := r.edited unit seen } known =
      { Scope.ofUnit unit known with
        staticImports := r.movedImports seen (Scope.ofUnit unit known).staticImports } := by
  rw [Scope.ofUnit_eq, packageOf_edited hdot hunit, staticImports_edited hdot hunit,
    filter_edited hdot hunit fun n parts hparts => by simp [hparts], Scope.ofUnit_eq unit]

theorem unitClasses_edited :
    unitClasses { unit with children := r.edited unit seen } = unitClasses unit := by
  rw [unitClasses, unitClasses, packageOf_edited hdot hunit, declaredClassesList_eq_flatMap,
    declaredClassesList_eq_flatMap]
  refine flatMap_edited hdot hunit fun n parts _ hparts => ?_
  have hkind := kind_of_parts hparts
  exact declaredClasses_other (by rw [hkind]; decide) (by rw [isBody, hkind]; rfl)

theorem unitSymbols_edited (known : List String) :
    unitSymbols known { unit with children := r.edited unit seen } = unitSymbols known unit := by
  rw [unitSymbols, unitSymbols, unitClasses_edited hdot hunit, ofUnit_edited hdot hunit]
  rfl

end

/-! ### Source sets -/

/-- A unit with what a table tells about it, behind one application. -/
def rewrite (r : Renaming) (symbols : SymbolTable) (unit : Node) : Node :=
  (r.pass (attributeUnit symbols unit)).getD (attributeUnit symbols unit)

theorem insert_renamed (table : SymbolTable) (c : ClassSymbol) :
    r.renamedTable (table.insert c) = (r.renamedTable table).insert (r.renamedClass c) := by
  rw [renamedTable, renamedTable, SymbolTable.insert, SymbolTable.insert, List.filter_map,
    List.map_append]
  rfl

theorem insertAll_renamed (symbols : List ClassSymbol) (table : SymbolTable) :
    r.renamedTable (symbols.foldl SymbolTable.insert table) =
      (symbols.map r.renamedClass).foldl SymbolTable.insert (r.renamedTable table) := by
  induction symbols generalizing table with
  | nil => rfl
  | cons c symbols ih => rw [List.foldl_cons, ih, insert_renamed, List.map_cons, List.foldl_cons]

section
variable {units : List Node} {source : String} {unit : Node} (h : parseUnit source = .ok unit)
include h

theorem nameless_attributeUnit (symbols : SymbolTable) :
    IsNameless (attributeUnit symbols unit).kind := by
  rw [(attributed_of_parseUnit h symbols).1.kind]
  rfl

theorem unitSymbols_respell :
    unitSymbols (knownClasses units) (r.respell (attributeUnit (.ofUnits units) unit)) =
      (unitSymbols (knownClasses units) unit).map r.renamedClass := by
  have hregular := regular_attributeUnit h (.ofUnits units)
  have hnameless := nameless_attributeUnit h (.ofUnits units)
  have huntyped := untyped_attributeUnit h (.ofUnits units)
  rw [(respelling_respell r).unitSymbols (g := r.renamed) hregular hnameless
    fun d hd member hmember hkind => ?_]
  · rw [← unitSymbols_untyped _ hregular hnameless, huntyped]
    rfl
  · have hmem := mem_preorder_trans (mem_preorder_of_member hmember) (mem_preorder_of_unitClasses hd)
    have hscope : Scope.ofUnit (attributeUnit (.ofUnits units) unit) (knownClasses units) =
        .ofUnit unit (knownClasses units) := by
      rw [← respelling_untyped.ofUnit hregular, huntyped]
    have hsigned := signed_attributeUnit h _ hd member hmember hkind
    rw [← unitScope, method_unitScope] at hsigned
    rw [hscope]
    exact method_respell (fun m hm => hregular m (mem_preorder_trans hm hmem))
      (spelled_attributeUnit h _ member hmem) hkind hsigned

theorem unitSymbols_rewrite (hdot : '.' ∉ r.newName.toList) {text : String}
    (hagain : parseUnit text = .ok (r.rewrite (.ofUnits units) unit).untyped) :
    unitSymbols (knownClasses units) (r.rewrite (.ofUnits units) unit).untyped =
      (unitSymbols (knownClasses units) unit).map r.renamedClass := by
  obtain ⟨hattributed, _⟩ := attributed_of_parseUnit h (.ofUnits units)
  obtain ⟨seen, _, hrespelled, hrewrite⟩ := pass_eq (r := r) hattributed
  have hregular : (r.rewrite (.ofUnits units) unit).Everywhere Regular :=
    respelling_untyped.everywhere_regular.1 ((parsed_of_parseUnit hagain).imp fun _ => Parsed.regular)
  rw [rewrite, hrewrite] at hregular ⊢
  rw [unitSymbols_untyped _ hregular (by rw [hrespelled.kind]; rfl),
    unitSymbols_edited hdot hrespelled, unitSymbols_respell h]

end

theorem ofUnits_rewrite {units : List Node} (hdot : '.' ∉ r.newName.toList)
    (hunits : ∀ unit ∈ units, ∃ source, parseUnit source = .ok unit)
    (hagain : ∀ unit ∈ units, ∃ text,
      parseUnit text = .ok (r.rewrite (.ofUnits units) unit).untyped) :
    SymbolTable.ofUnits (units.map fun unit => (r.rewrite (.ofUnits units) unit).untyped) =
      r.renamedTable (.ofUnits units) := by
  have hsymbols : ∀ unit ∈ units,
      unitSymbols (knownClasses units) (r.rewrite (.ofUnits units) unit).untyped =
        (unitSymbols (knownClasses units) unit).map r.renamedClass := by
    intro unit hunit
    obtain ⟨source, h⟩ := hunits unit hunit
    obtain ⟨text, hagain⟩ := hagain unit hunit
    exact unitSymbols_rewrite h hdot hagain
  have hknown : knownClasses (units.map fun unit => (r.rewrite (.ofUnits units) unit).untyped) =
      knownClasses units := by
    rw [knownClasses, knownClasses, List.flatMap_map]
    refine List.flatMap_congr fun unit hunit => ?_
    rw [← names_unitSymbols (knownClasses units), hsymbols unit hunit, List.map_map,
      ← names_unitSymbols (knownClasses units)]
    rfl
  rw [SymbolTable.ofUnits, hknown, List.flatMap_map, List.flatMap_congr hsymbols, ← List.map_flatMap]
  exact (insertAll_renamed _ {}).symm

end Renaming

end Codemod.Recipes.MethodName
