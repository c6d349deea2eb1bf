import Codemod.Proofs.Recipes.RenamedText

/-!
What the recipe that renames methods leaves alone. The tree that it makes of an attributed unit is
related to the tree of the unit node for node: names of selected methods and members of static
imports are replaced, imports are added behind others, and nothing else differs.
-/

namespace Codemod.Recipes.MethodName

open Codemod.Tree Codemod.Java

namespace Renaming

/-! ### Trees under the new name -/

/-- Attribution attached a method to the node that the pattern selects and that has another name
than the new one. -/
def Meets (r : Renaming) (n : Node) (m : Signature) : Prop :=
  (n.type? = some (.method m) ∨ ∃ viaStaticImport, n.type? = some (.invocation m viaStaticImport)) ∧
    m.name ≠ r.newName ∧ r.pattern.selects m = true

mutual

/-- The trees are the same, but for the name of each declaration and each call that meets the
pattern: the token in front of the list of its parameters or its arguments, and the name that
attribution attached. -/
inductive Retitled (r : Renaming) : Node → Node → Prop where
  | same {n : Node} {es : List Element} (hn : ∀ m, ¬ r.Meets n m)
      (hes : RetitledAll r n.children es) : Retitled r n { n with children := es }
  | renamed {n list : Node} {m : Signature} {name : Token} {front behind : List Element}
      (hn : r.Meets n m)
      (hes : RetitledAll r n.children (front ++ .token name :: .node list :: behind))
      (hname : name.text = m.name)
      (hlist : (listBehindName? n.kind).map Tree.Kind.java = some list.kind)
      (hfront : ∀ c, Element.node c ∈ front → c.kind ≠ list.kind) :
      Retitled r n
        { n with
          children := front ++ .token { name with text := r.newName } :: .node list :: behind
          type? := n.type?.map fun info => info.renamed r.newName }

/-- Children that are the same but for names of methods. -/
inductive RetitledAll (r : Renaming) : List Element → List Element → Prop where
  | nil : RetitledAll r [] []
  | token {t : Token} {es es' : List Element} (hes : RetitledAll r es es') :
      RetitledAll r (.token t :: es) (.token t :: es')
  | node {n n' : Node} {es es' : List Element} (hn : Retitled r n n')
      (hes : RetitledAll r es es') : RetitledAll r (.node n :: es) (.node n' :: es')

end

variable {r : Renaming} {symbols : SymbolTable}

theorem meets_iff {n : Node} {m : Signature} :
    r.Meets n m ↔ ∃ info, n.type? = some info ∧ info.method? = some m ∧ r.applies m = true := by
  have happlies : r.applies m = true ↔ m.name ≠ r.newName ∧ r.pattern.selects m = true := by
    simp [applies]
  rw [Meets, ← happlies]
  constructor
  · rintro ⟨htype | ⟨via, htype⟩, h⟩
    · exact ⟨_, htype, rfl, h⟩
    · exact ⟨_, htype, rfl, h⟩
  · rintro ⟨info, htype, hm, h⟩
    refine ⟨?_, h⟩
    cases info with
    | type name => cases hm
    | method m' => cases hm; exact .inl htype
    | invocation m' via => cases hm; exact .inr ⟨via, htype⟩

theorem respellHere_of_not_meets {n : Node} (h : ∀ m, ¬ r.Meets n m) : r.respellHere n = n := by
  rcases respellHere_cases (r := r) n with hsame | ⟨info, m, _, hinfo, hm, happlies, _⟩
  · exact hsame
  · exact absurd (meets_iff.2 ⟨info, hinfo, hm, happlies⟩) (h m)

theorem respellHere_of_meets {n : Node} {m : Signature} (hspelled : Spelled symbols n)
    (h : r.Meets n m) : methodName? n = some m.name ∧ r.rename? n = some (r.respellHere n) := by
  obtain ⟨info, hinfo, hm, happlies⟩ := meets_iff.1 h
  have hrename : ∀ hname : methodName? n = some m.name, ∃ w, r.rename? n = some w := fun hname =>
    (mention_rename hinfo hm hname happlies).imp fun _ => And.left
  cases info with
  | type name => cases hm
  | method m' =>
      cases hm
      obtain ⟨hkind, hname⟩ := hspelled.declaration m hinfo
      obtain ⟨w, hw⟩ := hrename hname
      refine ⟨hname, ?_⟩
      rw [respellHere, hkind]
      simp [declaration, hinfo, happlies, hw]
  | invocation m' via =>
      cases hm
      obtain ⟨hkind, hname, _⟩ := hspelled.call m via hinfo
      obtain ⟨w, hw⟩ := hrename hname
      refine ⟨hname, ?_⟩
      rw [respellHere, hkind]
      simp [call_fst, hinfo, happlies, hw]

theorem rename_eq {n w : Node} {name : String} (hname : methodName? n = some name)
    (hw : r.rename? n = some w) :
    ∃ front t list behind, n.children = front ++ .token t :: .node list :: behind ∧
      t.text = name ∧ (listBehindName? n.kind).map Tree.Kind.java = some list.kind ∧
        (∀ c, Element.node c ∈ front → c.kind ≠ list.kind) ∧
          w = { n with
            children := front ++ .token { t with text := r.newName } :: .node list :: behind
            type? := n.type?.map fun info => info.renamed r.newName } := by
  obtain ⟨w₁, hw₁, rfl⟩ := Option.map_eq_some_iff.1 hw
  obtain ⟨⟨index, t⟩, hslot, rfl⟩ := Option.map_eq_some_iff.1 hw₁
  have htext : t.text = name := by
    rw [methodName?, hslot] at hname
    exact Option.some.inj hname
  obtain ⟨kind, hkind, hposition, ht, _⟩ := methodNameSlot_eq_some.1 hslot
  obtain ⟨hindex, hat, hfirst⟩ := List.findIdx?_eq_some_iff_getElem.1 hposition
  obtain ⟨hbefore, heq⟩ := List.getElem?_eq_some_iff.1 ht
  obtain ⟨list, hlist, hlistKind⟩ : ∃ list, n.children[index + 1] = .node list ∧
      list.kind = .java kind := by
    cases he : n.children[index + 1] with
    | token u => simp [he, Element.node?] at hat
    | node list => exact ⟨list, rfl, by simpa [he, Element.node?] using hat⟩
  refine ⟨n.children.take index, t, list, n.children.drop (index + 2), ?_, htext, ?_, ?_, ?_⟩
  · rw [← heq, ← hlist, ← List.drop_eq_getElem_cons hindex, ← List.drop_eq_getElem_cons hbefore,
      List.take_append_drop]
  · rw [hkind, hlistKind]
    rfl
  · intro c hc hsame
    obtain ⟨i, hi, hci⟩ := List.mem_iff_getElem.1 hc
    rw [List.getElem_take] at hci
    have hno := hfirst i (by rw [List.length_take] at hi; omega)
    simp [hci, Element.node?, hsame, hlistKind] at hno
  · have hset : n.children.set index (.token { t with text := r.newName }) =
        n.children.take index ++ .token { t with text := r.newName } :: .node list ::
          n.children.drop (index + 2) := by
      rw [List.set_eq_take_append_cons_drop, if_pos hbefore, List.drop_eq_getElem_cons hindex, hlist]
    rw [← hset]
    rfl

theorem retitledAll_of_children {φ : Node → Node} {es : List Element}
    (h : ∀ c, Element.node c ∈ es → r.Retitled c (φ c)) :
    r.RetitledAll es (es.map (Element.mapNode φ)) := by
  induction es with
  | nil => exact .nil
  | cons e es ih =>
      have hes := ih fun c hc => h c (List.mem_cons_of_mem _ hc)
      cases e with
      | token t => exact .token hes
      | node n => exact .node (h n List.mem_cons_self) hes

theorem retitled_respell {n : Node} (h : n.Everywhere (Spelled symbols)) :
    r.Retitled n (r.respell n) := by
  induction n using Node.induction_on with
  | step n ih =>
      obtain ⟨hspelled, hbelow⟩ := everywhere_iff.1 h
      have hes : r.RetitledAll n.children (n.children.map (Element.mapNode r.respell)) :=
        retitledAll_of_children fun c hc => ih c hc (hbelow c hc)
      obtain ⟨v, hv⟩ : ∃ v, v = { n with children := n.children.map (Element.mapNode r.respell) } :=
        ⟨_, rfl⟩
      have hkind : v.kind = n.kind := by rw [hv]
      have htype : v.type? = n.type? := by rw [hv]
      have hmeets : ∀ m, r.Meets v m ↔ r.Meets n m := fun m => by rw [Meets, Meets, htype]
      rw [respell_eq, ← hv]
      by_cases hmeet : ∃ m, r.Meets n m
      · obtain ⟨m, hm⟩ := hmeet
        have hskeleton : v.children.map skeleton = n.children.map skeleton := by
          rw [hv]
          exact skeleton_mapNode kind_respell n.children
        obtain ⟨hname, hrename⟩ := respellHere_of_meets
          (spelled_skeleton hkind htype hskeleton hspelled) ((hmeets m).2 hm)
        obtain ⟨front, t, list, behind, hchildren, htext, hlist, hfront, hw⟩ := rename_eq hname hrename
        rw [hw, hv]
        rw [hv] at hchildren hlist
        exact .renamed hm (hchildren ▸ hes) htext hlist hfront
      · rw [respellHere_of_not_meets fun m hm => hmeet ⟨m, (hmeets m).1 hm⟩, hv]
        exact .same (fun m hm => hmeet ⟨m, hm⟩) hes

/-! ### Imports -/

/-- The clause imports one static member, and the other one is the same clause with the name in
place of the member: it imports that name from the same owner. -/
structure Reimports (name : String) (n w : Node) : Prop where
  static : ∃ owner member, staticImportParts? n = some (owner, member) ∧ member ≠ "*" ∧
    staticImportParts? w = some (owner, name)
  clause : ∃ (words us : List Token) (qualified : Node) (member semicolon : Token),
    n.children = words.map .token ++ [.node qualified, .token semicolon] ∧
      qualified.kind = .java .qualifiedName ∧ qualified.children = (us ++ [member]).map .token ∧
        w = { n with
          children := words.map .token ++
            [ .node { qualified with
                children := (us ++ [{ member with text := name }]).map .token },
              .token semicolon ] }

/-- What stands in the place of a child of a unit: the child itself, retitled, or an import that is
rewritten, or an import with one other behind it, as the fate of the import says. -/
inductive Edited (r : Renaming) (unit : Node) : Element → List Element → Prop where
  | token (t : Token) : Edited r unit (.token t) [.token t]
  | stays {n n' : Node} (hfate : r.fate unit n = .stays) (hn : r.Retitled n n') :
      Edited r unit (.node n) [.node n']
  | renamed {n w : Node} (hfate : r.fate unit n = .renamed) (hw : Reimports r.newName n w) :
      Edited r unit (.node n) [.node w]
  | doubled {n w : Node} (hfate : r.fate unit n = .doubled) (hw : Reimports r.newName n w) :
      Edited r unit (.node n) [.node n, .node { w with lead := "\n" ++ Text.indent n.lead }]

theorem reimports_of_fate {unit n : Node} (hdot : '.' ∉ r.newName.toList)
    (hclause : n.kind = .java .importClause → ClauseShaped n) (h : r.fate unit n ≠ .stays) :
    r.respell n = n ∧ ∃ w, withImportMember? n r.newName = some w ∧ Reimports r.newName n w := by
  obtain ⟨owner, member, hparts, hstar, _⟩ := parts_of_fate h
  have hkind := kind_of_parts hparts
  have hshape := hclause hkind
  obtain ⟨w, hw, _, _, hparts'⟩ := withImportMember_of_parts hshape hkind hparts hstar hdot
  obtain ⟨words, us, qualified, semicolon, dot, t, hname, hchildren, hts, _, _, ht, _⟩ :=
    member_of_clause hshape hkind hparts hstar
  have hwith := withImportMember_eq hname hchildren hts ht.1 r.newName
  obtain rfl := Option.some.inj (hw.symm.trans hwith)
  refine ⟨respell_eq_self ?_, _, hw, ⟨owner, member, hparts, hstar, hparts'⟩,
    words, us ++ [dot], qualified, t, semicolon, hchildren, hname, ?_, ?_⟩
  · exact everywhere_clause hshape hkind (fun m hm => by rw [hm]; rfl) fun m hm => by rw [hm]; rfl
  · rw [hts, List.append_assoc]
    rfl
  · rw [List.append_assoc]
    rfl

variable {seen : Seen} {unit : Node}

theorem edited_child (hdot : '.' ∉ r.newName.toList) (hunit : Attributed unit)
    (hregular : unit.Everywhere Regular) (hspelled : unit.Everywhere (Spelled symbols))
    (hcollects : r.Collects (staticCalls unit) {} seen) {e : Element} (he : e ∈ unit.children) :
    r.Edited unit e ((r.replaceChild seen (staticImports unit) (e.mapNode r.respell)).getD
      [e.mapNode r.respell]) := by
  cases e with
  | token t => exact .token t
  | node n =>
      have hparts : staticImportParts? (r.respell n) = staticImportParts? n :=
        (respelling_respell r).staticImportParts ((everywhere_iff.1 hregular).2 n he)
      have hsame : r.fate unit (r.respell n) = r.fate unit n := by rw [fate, fate, hparts]
      rw [Element.mapNode, replaceChild_fate hcollects, hsame]
      by_cases hstays : r.fate unit n = .stays
      · rw [hstays]
        exact .stays hstays (retitled_respell ((everywhere_iff.1 hspelled).2 n he))
      · obtain ⟨hself, w, hw, hreimports⟩ := reimports_of_fate hdot (hunit.clauses n he) hstays
        rw [hself, hw]
        cases hfate : r.fate unit n with
        | stays => exact absurd hfate hstays
        | renamed => exact .renamed hfate hreimports
        | doubled => exact .doubled hfate hreimports

end Renaming

/-- A valid renaming edits the children of an attributed unit one by one, and nothing else of the
unit differs. -/
theorem changeMethodName_edits {pattern newName : Option String}
    (hvalid : (changeMethodName pattern newName).validate = []) {source : String} {unit : Node}
    (hparse : parseUnit source = .ok unit) (symbols : SymbolTable) :
    ∃ r, renaming? pattern newName = some r ∧
      let root := attributeUnit symbols unit
      ∃ pieces, List.Forall₂ (r.Edited root) root.children pieces ∧
        ((changeMethodName pattern newName).apply ⟨root, []⟩).root =
          { root with children := pieces.flatten } := by
  obtain ⟨r, hr, hdot, -⟩ := renaming_of_valid hvalid
  refine ⟨r, hr, ?_⟩
  intro root
  have hunit : Attributed root := (attributed_of_parseUnit hparse symbols).1
  have hregular := regular_attributeUnit hparse symbols
  have hspelled := spelled_attributeUnit hparse symbols
  obtain ⟨seen, hcollects, -, hpass⟩ := Renaming.pass_eq (r := r) hunit
  rw [← Renaming.staticCalls_unit hunit] at hcollects
  have hrespell : r.respell root =
      { root with children := root.children.map (Element.mapNode r.respell) } := by
    rw [Renaming.respell_eq]
    exact Renaming.respellHere_other (by rw [hunit.kind]; rfl)
  obtain ⟨piece, hpiece⟩ : ∃ piece : Element → List Element, piece = fun e =>
      (r.replaceChild seen (staticImports root) (e.mapNode r.respell)).getD [e.mapNode r.respell] :=
    ⟨_, rfl⟩
  have hedited : r.edited (r.respell root) seen = (root.children.map piece).flatten := by
    have hexisting : (r.respell root).childNodes.filterMap staticImportParts? = staticImports root :=
      Renaming.staticImports_respell hregular
    rw [Renaming.edited, hexisting, hrespell, hpiece, List.flatMap_map]
    rfl
  refine ⟨root.children.map piece, ?_, ?_⟩
  · refine List.forall₂_map_right_iff.2 (List.forall₂_same.2 fun e he => ?_)
    rw [hpiece]
    exact Renaming.edited_child hdot hunit hregular hspelled hcollects he
  · rw [root_apply hr, hpass, hedited, hrespell]

/-- Calls stand in the receivers and the arguments of others; the calls of the other method keep
their name, and with it the old import. -/
theorem changeMethodName_edits_nested :
    let recipe := changeMethodName (some "p.B f(int)") (some "h")
    let source := "package p;\n  import static p.B.f;\nimport static p.B.*;\nclass B \x7b\n"
      ++ "  static B f(int i) \x7b\x7d\n  static int f() \x7b\x7d\n  B g(int i) \x7b\x7d\n\x7d\n"
      ++ "class A \x7b void t() \x7b f(f()).g(f()); f(1).f(2); \x7d \x7d\n"
    ∃ unit r, parseUnit source = .ok unit ∧ renaming? (some "p.B f(int)") (some "h") = some r ∧
      let root := attributeUnit (.ofUnits [unit]) unit
      ∃ pieces, List.Forall₂ (r.Edited root) root.children pieces ∧
        (recipe.apply ⟨root, []⟩).root = { root with children := pieces.flatten } ∧
          (recipe.apply ⟨root, []⟩).root.print =
            "package p;\n  import static p.B.f;\n  import static p.B.h;\nimport static p.B.*;\n"
              ++ "class B \x7b\n  static B h(int i) \x7b\x7d\n  static int f() \x7b\x7d\n"
              ++ "  B g(int i) \x7b\x7d\n\x7d\n"
              ++ "class A \x7b void t() \x7b h(f()).g(f()); h(1).h(2); \x7d \x7d\n" := by
  intro recipe source
  have hvalid : recipe.validate = [] := by decide +kernel
  have hprint : (parseUnit source).toOption.map (fun unit =>
      (recipe.apply ⟨attributeUnit (.ofUnits [unit]) unit, []⟩).root.print) =
        some ("package p;\n  import static p.B.f;\n  import static p.B.h;\nimport static p.B.*;\n"
          ++ "class B \x7b\n  static B h(int i) \x7b\x7d\n  static int f() \x7b\x7d\n"
          ++ "  B g(int i) \x7b\x7d\n\x7d\n"
          ++ "class A \x7b void t() \x7b h(f()).g(f()); h(1).h(2); \x7d \x7d\n") := by
    decide +kernel
  cases hunit : parseUnit source with
  | error e =>
      rw [hunit] at hprint
      cases hprint
  | ok unit =>
      rw [hunit] at hprint
      obtain ⟨r, hr, pieces, hpieces, hroot⟩ := changeMethodName_edits hvalid hunit (.ofUnits [unit])
      exact ⟨unit, r, rfl, hr, pieces, hpieces, hroot, Option.some.inj hprint⟩

end Codemod.Recipes.MethodName
