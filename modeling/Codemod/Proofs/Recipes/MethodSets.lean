import Codemod.Proofs.Recipes.MethodAttribution

/-!
A renamed source set, printed and parsed again. Where the new name is used nowhere, the pattern
selects methods of one name, and static imports bring these in by their class, attribution finds out
about the printed files what the renamed trees carry.
-/

namespace Codemod.Tree

theorem everywhere_withChild {P : Node → Prop} (hP : ∀ m children, P m → P { m with children })
    {n : Node} (h : n.Everywhere P) (index : Nat) {child : Element}
    (hchild : ∀ c, child = .node c → c.Everywhere P) : (n.withChild index child).Everywhere P := by
  obtain ⟨hn, hbelow⟩ := everywhere_iff.1 h
  refine everywhere_iff.2 ⟨hP n _ hn, fun c hc => ?_⟩
  rcases List.mem_or_eq_of_mem_set hc with hc | hc
  · exact hbelow c hc
  · exact hchild c hc.symm

end Codemod.Tree

namespace Codemod.Java

open Codemod.Tree

theorem Still.withImportMember {n n' : Node} {member : String} (h : Still n)
    (hn' : withImportMember? n member = some n') : Still n' := by
  simp only [withImportMember?, Option.bind_eq_bind, Option.bind_eq_some_iff] at hn'
  obtain ⟨index, _, e, he, name, hname, index', _, e', _, token, _, hn'⟩ := hn'
  cases hn'
  refine everywhere_withChild (fun m children hm => hm) h index ?_
  rintro c ⟨⟩
  have hmem : Element.node name ∈ n.children := by
    cases e with
    | token t => cases hname
    | node c =>
        cases hname
        exact List.mem_of_getElem? he
  refine everywhere_withChild (fun m children hm => hm) ((everywhere_iff.1 h).2 name hmem) index' ?_
  rintro c ⟨⟩

theorem Still.withLead {n : Node} (h : Still n) (lead : String) : Still { n with lead } :=
  everywhere_iff.2 (everywhere_iff.1 h)

theorem still_of_clause {symbols : SymbolTable} {n : Node} (hshape : ClauseShaped n)
    (hkind : n.kind = .java .importClause) (hspelled : n.Everywhere (Spelled symbols)) : Still n := by
  have hnone : ∀ m : Node, (m.kind = .java .importClause ∨ m.kind = .java .qualifiedName) →
      Spelled symbols m → m.type? = none := by
    intro m hm hspelled
    cases htype : m.type? with
    | none => rfl
    | some info =>
        have hother : m.kind = .java .classDeclaration ∨ m.kind = .java .methodDeclaration ∨
            m.kind = .java .methodInvocation := by
          cases info with
          | type name => exact .inl (hspelled.type name htype)
          | method signature => exact .inr (.inl (hspelled.declaration signature htype).1)
          | invocation signature via => exact .inr (.inr (hspelled.call signature via htype).1)
        rcases hm with hm | hm <;> rw [hm] at hother <;> simp at hother
  intro m hm
  have hkinds := Recipes.MethodName.everywhere_clause hshape hkind
    (P := fun m => m.kind = .java .importClause ∨ m.kind = .java .qualifiedName) (fun _ => .inl)
    (fun _ => .inr) m hm
  exact ⟨hkinds, hnone m hkinds (hspelled m hm)⟩

end Codemod.Java

namespace Codemod.Recipes.MethodName

open Codemod.Tree Codemod.Java

namespace Renaming

variable {r : Renaming} {seen : Seen}

/-! ### One unit -/

theorem replaces_flatMap {f : Element → List Element} {es : List Element}
    (h : ∀ e ∈ es, f (e.mapNode r.respell) = [e.mapNode r.respell] ∨
      ∃ (n : Node) (clauses : List Node), e = .node n ∧ Still n ∧ f (e.mapNode r.respell) = clauses.map .node ∧
        ∀ c ∈ clauses, Still c) :
    Replaces r es ((es.map (Element.mapNode r.respell)).flatMap f) := by
  induction es with
  | nil => exact .nil
  | cons e es ih =>
      have hrest := ih fun e' he' => h e' (List.mem_cons_of_mem _ he')
      rw [List.map_cons, List.flatMap_cons]
      rcases h e List.mem_cons_self with hsame | ⟨n, clauses, rfl, hn, hmoved, hclauses⟩
      · rw [hsame]
        cases e with
        | token t => exact .token hrest
        | node n => exact .node hrest
      · rw [hmoved]
        exact .clause hn hclauses hrest

theorem still_replaceChild {existing : List (String × String)} {n : Node} {parts : String × String}
    (hdot : '.' ∉ r.newName.toList) (hshape : ClauseShaped n) (hn : Still n)
    (hparts : staticImportParts? n = some parts) :
    ∃ clauses : List Node, (r.replaceChild seen existing (.node n)).getD [.node n] =
      clauses.map .node ∧ ∀ c ∈ clauses, Still c := by
  have hself : ∀ c ∈ [n], Still c := by simpa using hn
  by_cases hstar : parts.2 = "*"
  · refine ⟨[n], ?_, hself⟩
    rw [replaceChild, hparts]
    simp [hstar]
  · have hkind := kind_of_parts hparts
    obtain ⟨n', hn', _⟩ := withImportMember_of_parts hshape hkind hparts hstar hdot
    have hmoved := hn.withImportMember hn'
    rw [replaceChild_static hparts hn']
    simp only
    split_ifs
    · exact ⟨[n], rfl, hself⟩
    · exact ⟨[n], rfl, hself⟩
    · refine ⟨[n, { n' with lead := "\n" ++ Text.indent n.lead }], rfl, ?_⟩
      simpa using ⟨hn, hmoved.withLead _⟩
    · exact ⟨[n'], rfl, by simpa using hmoved⟩
    · exact ⟨[n], rfl, hself⟩

theorem replaces_edited {symbols : SymbolTable} {unit : Node} (hdot : '.' ∉ r.newName.toList)
    (hunit : Attributed unit) (hspelled : unit.Everywhere (Spelled symbols)) :
    Replaces r unit.children (r.edited (r.respell unit) seen) := by
  have hchildren : (r.respell unit).children = unit.children.map (Element.mapNode r.respell) :=
    (respelling_respell r).children_of_nameless (by rw [hunit.kind]; rfl)
  rw [edited, hchildren]
  generalize (r.respell unit).childNodes.filterMap staticImportParts? = existing
  refine replaces_flatMap fun e he => ?_
  by_cases himport : ∃ n parts, e.mapNode r.respell = .node n ∧ staticImportParts? n = some parts
  · obtain ⟨n, parts, hn, hparts⟩ := himport
    cases e with
    | token t => cases hn
    | node m =>
        cases hn
        have hkind : m.kind = .java .importClause := (kind_respell m).symm.trans (kind_of_parts hparts)
        have hshape := hunit.clauses m he hkind
        have hstill := still_of_clause hshape hkind ((everywhere_iff.1 hspelled).2 m he)
        have hself : r.respell m = m := respell_eq_self (hstill.imp fun c hc => by
          rcases hc.1 with hc | hc <;> · rw [hc]; rfl)
        rw [hself] at hparts
        obtain ⟨clauses, hmoved, hclauses⟩ := still_replaceChild hdot hshape hstill hparts
        refine .inr ⟨m, clauses, rfl, hstill, ?_, hclauses⟩
        rw [Element.mapNode, hself]
        exact hmoved
  · exact .inl (by rw [replaceChild_other fun n parts hn hparts => himport ⟨n, parts, hn, hparts⟩]; rfl)

theorem ofUnit_rewrite {symbols : SymbolTable} {source : String} {unit : Node}
    (h : parseUnit source = .ok unit) (hdot : '.' ∉ r.newName.toList)
    (hrespelled : Attributed (r.respell (attributeUnit symbols unit))) (known : List String)
    (seen : Seen) :
    Scope.ofUnit { r.respell (attributeUnit symbols unit) with
        children := r.edited (r.respell (attributeUnit symbols unit)) seen } known =
      { Scope.ofUnit unit known with
        staticImports := r.movedImports seen (unit.childNodes.filterMap staticImportParts?) } := by
  have hregular := regular_attributeUnit h symbols
  have hscope : Scope.ofUnit (r.respell (attributeUnit symbols unit)) known = .ofUnit unit known := by
    rw [(respelling_respell r).ofUnit hregular, ← respelling_untyped.ofUnit hregular,
      untyped_attributeUnit h]
  rw [ofUnit_edited hdot hrespelled, hscope, Scope.staticImports_ofUnit]

theorem attributeUnit_rewrite {name : String} {symbols : SymbolTable} {source text : String}
    {unit : Node} (h : parseUnit source = .ok unit) (hdot : '.' ∉ r.newName.toList)
    (hagain : parseUnit text = .ok (r.rewrite symbols unit).untyped)
    (hnames : unit.Everywhere fun m => methodName? m ≠ some r.newName)
    (hfollows : ∀ seen, r.Collects (staticCallsIn (attributeUnit symbols unit).children) {} seen →
      r.Follows name symbols (unit.childNodes.filterMap staticImportParts?)
        (staticCallsIn (attributeUnit symbols unit).children) seen) :
    attributeUnit (r.renamedTable symbols) (r.rewrite symbols unit).untyped =
      r.rewrite symbols unit := by
  obtain ⟨hattributed, _⟩ := attributed_of_parseUnit h symbols
  obtain ⟨seen, hseen, hrespelled, hrewrite⟩ := pass_eq (r := r) hattributed
  have hfollows := hfollows seen hseen
  obtain ⟨es', below, s', hswept, hresult⟩ :=
    attributeUnit_swept h symbols (leaves_inStep hfollows)
  have hreplaces : Replaces r (attributeUnit symbols unit).children
      (r.edited (r.respell (attributeUnit symbols unit)) seen) :=
    replaces_edited hdot hattributed (spelled_attributeUnit h symbols)
  have htype : (r.respell (attributeUnit symbols unit)).type? = none := by
    have hnone : (attributeUnit symbols unit).type? = none := by
      rw [hresult]
      exact untyped_of_parseUnit h unit (mem_preorder_self unit)
    rw [respell_of_untyped hnone]
    exact hnone
  have hscope := ofUnit_rewrite (r := r) h hdot hrespelled (symbols.classes.map ClassSymbol.name)
    seen
  rw [rewrite, hrewrite] at hagain ⊢
  obtain ⟨w, hw⟩ : ∃ w, { r.respell (attributeUnit symbols unit) with
    children := r.edited (r.respell (attributeUnit symbols unit)) seen } = w := ⟨_, rfl⟩
  have hkind : w.kind = .java .compilationUnit := hw ▸ hrespelled.kind
  have hchildren : r.edited (r.respell (attributeUnit symbols unit)) seen = w.children := by rw [← hw]
  replace htype : w.type? = none := hw ▸ htype
  rw [hw] at hagain hscope ⊢
  rw [hchildren, hresult] at hreplaces
  have hregular : w.Everywhere Regular := respelling_untyped.everywhere_regular.1
    ((parsed_of_parseUnit hagain).imp fun _ => Parsed.regular)
  have hroot : w.untyped.kind = unit.kind := by
    rw [kind_untyped, hkind, (unit_of_parseUnit h).1.kind]
  obtain ⟨changed, hswept'⟩ := sweep_inStep hswept hroot (rfl : SameKinds [] [])
    (everywhere_iff.1 (parsed_of_parseUnit h)).2 (everywhere_iff.1 hnames).2
    (Scope.staticImports_ofUnit _ _) (by rw [hresult]; exact fun _ => id) hreplaces 0
  obtain ⟨context, hcontext⟩ : ∃ context : Context, context =
      { scope := .ofUnit w.untyped ((r.renamedTable symbols).classes.map ClassSymbol.name) } :=
    ⟨_, rfl⟩
  have hmoved : context = Context.withStaticImports
      { scope := .ofUnit unit (symbols.classes.map ClassSymbol.name) }
      (r.movedImports seen (unit.childNodes.filterMap staticImportParts?)) := by
    rw [hcontext, names_renamedTable, respelling_untyped.ofUnit hregular, hscope]
    rfl
  have henter : ((attributionHooks (r.renamedTable symbols)).visitor.enter w.untyped [] context).2 =
      context := by
    show context.enter w.untyped = context
    simp [Context.enter, kind_untyped, hkind]
  rw [← hmoved, ← henter, ← children_untyped] at hswept'
  have hvisits := Visitor.visits_of_swept (fun _ _ _ => rfl) hswept'
  have hself : ({ w.untyped with children := w.children } : Node) = w := by
    cases w
    cases htype
    rfl
  have hsilent : ∀ context, ((attributionHooks (r.renamedTable symbols)).visitor.leave w []
      context).1 = none := fun _ =>
    leave_silent (by simp [hkind]) (by simp [hkind]) (by simp [hkind])
  simp only [hself, hsilent, Option.getD_none] at hvisits
  have haccepts : (attributionHooks (r.renamedTable symbols)).visitor.accepts w.untyped = true := by
    simp [Hooks.visitor, kind_untyped, hkind]
  rw [attributeUnit, ← hcontext]
  exact Visitor.walk_of_visits haccepts hvisits

end Renaming

end Codemod.Recipes.MethodName

namespace Codemod.Recipes.MethodName

open Codemod.Tree Codemod.Java Codemod.Source

/-- Calls keep their meaning in a renamed source set: all methods that are selected have one name,
and each static import follows. -/
structure KeepsCalls (r : Renaming) (name : String) (units : List Node) : Prop where
  other : name ≠ r.newName
  only : ∀ c ∈ (SymbolTable.ofUnits units).classes, ∀ m ∈ c.methods, r.applies m = true →
    m.name = name
  follow : ∀ unit ∈ units, ∀ parts ∈ unit.childNodes.filterMap staticImportParts?,
    r.ImportFollows name (.ofUnits units) parts

instance (r : Renaming) (name : String) (symbols : SymbolTable) (parts : String × String) :
    Decidable (r.ImportFollows name symbols parts) :=
  decidable_of_iff
    ((parts.2 ≠ "*" → r.selectsImport parts.1 parts.2 = true → parts.2 = name) ∧
      (parts.2 = name ∨ parts.2 = "*" → ∀ m ∈ symbols.candidates parts.1 name, m.isStatic = true) ∧
      (parts.2 = name → ∀ m ∈ symbols.candidates parts.1 name, r.applies m = true →
        m.declaringType = parts.1 ∨ r.pattern.selectsOwner parts.1 = true))
    ⟨fun ⟨hselected, hstatic, hmoves⟩ => ⟨hselected, hstatic, hmoves⟩,
      fun h => ⟨h.selected, h.isStatic, h.moves⟩⟩

instance (r : Renaming) (name : String) (units : List Node) : Decidable (KeepsCalls r name units) :=
  decidable_of_iff
    (name ≠ r.newName ∧
      (∀ c ∈ (SymbolTable.ofUnits units).classes, ∀ m ∈ c.methods, r.applies m = true →
        m.name = name) ∧
      ∀ unit ∈ units, ∀ parts ∈ unit.childNodes.filterMap staticImportParts?,
        r.ImportFollows name (.ofUnits units) parts)
    ⟨fun ⟨hother, honly, hfollow⟩ => ⟨hother, honly, hfollow⟩,
      fun h => ⟨h.other, h.only, h.follow⟩⟩

/-- The name is no identifier of the unit. -/
def Unused (name : String) (unit : Node) : Prop :=
  ∀ t ∈ unit.leaves, t.kind = .identifier → t.text ≠ name

instance (name : String) (unit : Node) : Decidable (Unused name unit) :=
  inferInstanceAs (Decidable (∀ t ∈ unit.leaves, t.kind = .identifier → t.text ≠ name))

/-- The file behind one application of a recipe, with the text that its tree prints. -/
def rewritten (recipe : Recipe) (file : SourceFile) : SourceFile :=
  .ofTree file.path (recipe.apply ⟨file.root, []⟩).root

namespace Renaming

variable {r : Renaming} {name : String} {units : List Node}

section
variable {source : String} {unit : Node} (h : parseUnit source = .ok unit)
include h

theorem methodName_of_unused (hkeyword : isKeyword r.newName = false)
    (hunused : Unused r.newName unit) :
    unit.Everywhere fun n => methodName? n ≠ some r.newName := by
  intro n hn hname
  obtain ⟨t, ht, htext, hkind⟩ := token_of_methodName hname
  have hleaf : t ∈ unit.leaves := mem_leaves.2 ⟨n, hn, ht⟩
  rcases hkind with hkind | hkind
  · exact hunused t hleaf hkind htext
  · have hgenuine := (genuine_of_leaf h hleaf (by simp [hkind])).isKeyword hkind
    rw [htext, hkeyword] at hgenuine
    cases hgenuine

theorem member_of_unused (hstar : r.newName ≠ "*") (hunused : Unused r.newName unit)
    {parts : String × String} (hparts : parts ∈ unit.childNodes.filterMap staticImportParts?) :
    parts.2 ≠ r.newName := by
  obtain ⟨clause, hclause, hparts⟩ := List.mem_filterMap.1 hparts
  by_cases hall : parts.2 = "*"
  · rw [hall]
    exact hstar.symm
  · have hmem : Element.node clause ∈ unit.children := mem_childNodes.1 hclause
    have hkind := kind_of_parts hparts
    obtain ⟨t, ht, hidentifier, htext⟩ := identifier_of_parts (clauseShaped_of_parseUnit h hmem hkind)
      hkind hparts hall
    obtain ⟨n, hn, ht⟩ := mem_leaves.1 ht
    rw [← htext]
    exact hunused t (mem_leaves.2 ⟨n, mem_preorder.2 (.inr ⟨clause, hmem, hn⟩), ht⟩) hidentifier

theorem follows_of_keepsCalls (hunits : ∀ unit ∈ units, ∃ source, parseUnit source = .ok unit)
    (hstar : r.newName ≠ "*") (hkeyword : isKeyword r.newName = false)
    (hkeeps : KeepsCalls r name units) (hunused : ∀ unit ∈ units, Unused r.newName unit)
    (hunit : unit ∈ units) {seen : Seen}
    (hseen : r.Collects (staticCallsIn (attributeUnit (.ofUnits units) unit).children) {} seen) :
    r.Follows name (.ofUnits units) (unit.childNodes.filterMap staticImportParts?)
      (staticCallsIn (attributeUnit (.ofUnits units) unit).children) seen where
  other := hkeeps.other
  star := hstar
  keyword := hkeyword
  paren := fun c hc => paren_of_class hunits hc
  only := hkeeps.only
  fresh := by
    intro c hc m hm hname
    obtain ⟨home, hhome, d, hd, member, hmember, hkind, hmethod⟩ := declares_of_mem hc hm
    obtain ⟨source, hsource⟩ := hunits home hhome
    have hplace := mem_preorder_trans (mem_preorder_of_member hmember) (mem_preorder_of_unitClasses hd)
    refine methodName_of_unused hsource hkeyword (hunused home hhome) member hplace ?_
    rw [name_of_method hmethod, hname]
  members := fun parts => member_of_unused h hstar (hunused unit hunit)
  follow := hkeeps.follow unit hunit
  known := by
    intro m hm
    obtain ⟨call, hcall, hm⟩ := List.mem_filterMap.1 hm
    obtain ⟨c, hc, hcall⟩ := mem_preorderList.1 hcall
    rw [staticCall?] at hm
    split_ifs at hm
    split at hm
    · rename_i htype
      cases hm
      exact (spelled_attributeUnit h (.ofUnits units) call
        (mem_preorder.2 (.inr ⟨c, hc, hcall⟩))).call m true htype |>.2.2
    · cases hm
  collects := hseen

end

end Renaming

/-! ### Source sets -/

/-- The text of a file at its path, as it is parsed. -/
def input (file : SourceFile) : String × String :=
  (file.path, file.text)

theorem filesOf_eq (inputs : List (String × String)) :
    filesOf inputs = inputs.filterMap fun i => (parseJava i.1 i.2).toOption.map fun unit =>
      ⟨i.1, i.2, attributeUnit (.ofUnits (unitsOf inputs)) unit⟩ := by
  rw [filesOf, successes, parseJavaSet_eq, List.filterMap_map]
  refine List.filterMap_congr fun i _ => ?_
  cases hparse : parseJava i.1 i.2 <;> simp [hparse, Except.map, Except.toOption]

theorem untyped_filesOf (inputs : List (String × String)) :
    (filesOf inputs).map (fun file => file.root.untyped) = unitsOf inputs := by
  rw [filesOf_eq, unitsOf, successes, List.filterMap_map, List.map_filterMap]
  refine List.filterMap_congr fun i _ => ?_
  cases hparse : parseJava i.1 i.2 with
  | error e => simp [hparse, Except.toOption]
  | ok unit =>
      simp [hparse, Except.toOption, untyped_attributeUnit (parseJava_ok.1 hparse)]

theorem root_of_mem {inputs : List (String × String)} {file : SourceFile}
    (hfile : file ∈ filesOf inputs) :
    file.root.untyped ∈ unitsOf inputs ∧ (∃ source, parseUnit source = .ok file.root.untyped) ∧
      file.root = attributeUnit (.ofUnits (unitsOf inputs)) file.root.untyped := by
  obtain ⟨i, hi, unit, hparse, rfl⟩ := mem_files.1 hfile
  rw [untyped_attributeUnit hparse]
  exact ⟨mem_unitsOf.2 ⟨i, hi, hparse⟩, ⟨i.2, hparse⟩, rfl⟩

section
variable {pattern newName : Option String} {r : Renaming} {inputs : List (String × String)}
  (hr : renaming? pattern newName = some r)
include hr

theorem root_rewritten {file : SourceFile} (hfile : file ∈ filesOf inputs) :
    (rewritten (changeMethodName pattern newName) file).root =
      r.rewrite (.ofUnits (unitsOf inputs)) file.root.untyped := by
  show ((changeMethodName pattern newName).apply ⟨file.root, []⟩).root = _
  rw [root_apply hr, Renaming.rewrite, ← (root_of_mem hfile).2.2]

theorem unitsOf_rewritten
    (hagain : ∀ file ∈ (filesOf inputs).map (rewritten (changeMethodName pattern newName)),
      parseUnit file.text = .ok file.root.untyped) :
    unitsOf (((filesOf inputs).map (rewritten (changeMethodName pattern newName))).map input) =
      (unitsOf inputs).map fun unit => (r.rewrite (.ofUnits (unitsOf inputs)) unit).untyped := by
  have hmap : ∀ symbols, (unitsOf inputs).map (fun unit => (r.rewrite symbols unit).untyped) =
      (filesOf inputs).filterMap fun file => some (r.rewrite symbols file.root.untyped).untyped := by
    intro symbols
    rw [← untyped_filesOf, List.map_map, ← List.filterMap_eq_map]
    rfl
  rw [hmap, unitsOf, successes, List.map_map, List.map_map, List.filterMap_map]
  refine List.filterMap_congr fun file hfile => ?_
  show (parseJava _ (rewritten (changeMethodName pattern newName) file).text).toOption = _
  rw [parseJava_ok.2 (hagain _ (List.mem_map_of_mem hfile)), root_rewritten hr hfile]
  rfl

end

/-- A renamed source set whose files parse back is attributed anew exactly as it was rewritten: each
call means the method that it meant, under the name that this has now. -/
theorem calls_keep_meaning {pattern newName : Option String}
    (hvalid : (changeMethodName pattern newName).validate = []) (inputs : List (String × String)) :
    ∃ r, renaming? pattern newName = some r ∧
      ∀ name, KeepsCalls r name (unitsOf inputs) → (∀ unit ∈ unitsOf inputs, Unused r.newName unit) →
        let files := (filesOf inputs).map (rewritten (changeMethodName pattern newName))
        (∀ file ∈ files, parseUnit file.text = .ok file.root.untyped) →
          parseJavaSet (files.map input) = files.map .ok := by
  obtain ⟨r, hr, hidentifier⟩ := identifier_of_valid hvalid
  obtain ⟨hdot, hstar⟩ := dot_of_isJavaIdentifier hidentifier
  have hkeyword := keyword_of_isJavaIdentifier hidentifier
  refine ⟨r, hr, fun name hkeeps hunused => ?_⟩
  intro files hagain
  have hunits : ∀ unit ∈ unitsOf inputs, ∃ source, parseUnit source = .ok unit := by
    intro unit hunit
    obtain ⟨i, _, hparse⟩ := mem_unitsOf.1 hunit
    exact ⟨i.2, hparse⟩
  have hparse : ∀ unit ∈ unitsOf inputs, ∃ text,
      parseUnit text = .ok (r.rewrite (.ofUnits (unitsOf inputs)) unit).untyped := by
    intro unit hunit
    rw [← untyped_filesOf] at hunit
    obtain ⟨file, hfile, rfl⟩ := List.mem_map.1 hunit
    rw [← root_rewritten hr hfile]
    exact ⟨_, hagain _ (List.mem_map_of_mem hfile)⟩
  have htable := Renaming.ofUnits_rewrite hdot hunits hparse
  rw [parseJavaSet_eq, unitsOf_rewritten hr hagain, htable, List.map_map, List.map_map, List.map_map]
  refine List.map_congr_left fun file hfile => ?_
  obtain ⟨hunit, ⟨source, hsource⟩, _⟩ := root_of_mem hfile
  obtain ⟨text, htext⟩ := hparse _ hunit
  have hattributed := Renaming.attributeUnit_rewrite hsource hdot htext
    (Renaming.methodName_of_unused hsource hkeyword (hunused _ hunit)) fun seen hseen =>
      Renaming.follows_of_keepsCalls hsource hunits hstar hkeyword hkeeps hunused hunit hseen
  rw [← root_rewritten hr hfile] at hattributed
  simp only [Function.comp, input, parseJava_ok.2 (hagain _ (List.mem_map_of_mem hfile))]
  rw [Except.map, hattributed]

/-- One overload is renamed, the other is not: the static import of the one name is doubled, and
both calls mean what they meant. -/
theorem calls_keep_meaning_overloads :
    let inputs :=
      [ ("B.java",
          "package p;\nclass B \x7b static void f(int i) \x7b\x7d static void f() \x7b\x7d \x7d\n"),
        ("A.java", "import static p.B.f;\nclass A \x7b void g() \x7b f(1); f(); \x7d \x7d\n") ]
    let recipe := changeMethodName (some "p.B f(int)") (some "h")
    let files := (filesOf inputs).map (rewritten recipe)
    (filesOf (files.map input)).map (fun file =>
        (mentions file.root).map fun m => (m.1, m.2.method?.map Signature.parameters)) =
      [ [("h", some [.primitive "int"]), ("f", some [])],
        [("g", some []), ("h", some [.primitive "int"]), ("f", some [])] ] := by
  intro inputs recipe files
  have hvalid : recipe.validate = [] := by decide +kernel
  obtain ⟨r, hr, hkeep⟩ := calls_keep_meaning hvalid inputs
  have hconditions : (renaming? (some "p.B f(int)") (some "h")).all (fun r =>
      decide (KeepsCalls r "f" (unitsOf inputs) ∧
        ∀ unit ∈ unitsOf inputs, Unused r.newName unit)) = true := by
    decide +kernel
  rw [hr, Option.all_some, decide_eq_true_eq] at hconditions
  have hagain : ∀ file ∈ files, parseUnit file.text = .ok file.root.untyped := by
    decide +kernel
  have hset := hkeep "f" hconditions.1 hconditions.2 hagain
  have hfiles : filesOf (files.map input) = files := by
    rw [filesOf, successes, hset, List.filterMap_map]
    exact List.filterMap_some
  rw [hfiles]
  decide +kernel

end Codemod.Recipes.MethodName
