import Codemod.Proofs.Java.Resolved
import Codemod.Proofs.Recipes.MethodName
import Codemod.Source.Basic

/-!
Declarations and calls under one renaming. In attributed files each call carries the method of a
declaration, and the recipe that renames methods decides by the method alone; so a call and the
declaration that it means get the new name together, wherever they stand.
-/

namespace Codemod.Recipes.MethodName

open Codemod.Tree Codemod.Java

/-- The name that a declaration or a call is written with, and the method that it carries. -/
def mention? (n : Node) : Option (String × TypeInfo) :=
  match n.type? with
  | some info => if info.method?.isSome then (methodName? n).map fun name => (name, info) else none
  | none => none

/-- The names that the declarations and the calls in a tree are written with, and the methods that
they carry. -/
def mentions (n : Node) : List (String × TypeInfo) :=
  n.preorder.filterMap mention?

/-- The declaration or the call is selected by a pattern. -/
def selectedBy (pattern : Pattern.MethodPattern) (n : Node) : Bool :=
  (n.type?.bind TypeInfo.method?).any pattern.selects

theorem filterMap_preorder {α : Type} (f : Node → Option α) (n : Node) :
    n.preorder.filterMap f = (f n).toList ++ (Node.preorderList n.children).filterMap f := by
  obtain ⟨kind, lead, children, markers, type?⟩ := n
  rw [Node.preorder, List.filterMap_cons]
  cases f ⟨kind, lead, children, markers, type?⟩ <;> rfl

namespace Renaming

/-- A mention behind the renaming: the method that it carries decides on its name. -/
def mention (r : Renaming) (mention : String × TypeInfo) : String × TypeInfo :=
  if mention.2.method?.any r.applies then (r.newName, mention.2.renamed r.newName) else mention

variable {r : Renaming}

/-! ### One node -/

theorem mention_of_kind {n : Node} (hdeclaration : n.kind ≠ .java .methodDeclaration)
    (hcall : n.kind ≠ .java .methodInvocation) : mention? n = none := by
  have hname : methodName? n = none := by
    have hlist : listBehindName? n.kind = none := by
      rw [listBehindName?]
      · exact hdeclaration
      · exact hcall
    rw [methodName?, methodNameSlot?, hlist]
    rfl
  rw [mention?, hname]
  split
  · split_ifs <;> rfl
  · rfl

theorem mention_of_other {n : Node} (hmethod : ∀ m, n.type? ≠ some (.method m))
    (hcall : ∀ m via, n.type? ≠ some (.invocation m via)) : mention? n = none := by
  rw [mention?]
  cases htype : n.type? with
  | none => rfl
  | some info =>
      cases info with
      | type name => rfl
      | method m => exact absurd htype (hmethod m)
      | invocation m via => exact absurd htype (hcall m via)

theorem mention_skeleton {n n' : Node} (hkind : n'.kind = n.kind) (htype : n'.type? = n.type?)
    (h : n'.children.map skeleton = n.children.map skeleton) : mention? n' = mention? n := by
  rw [mention?, mention?, htype, methodName_skeleton hkind h]

theorem spelled_skeleton {symbols : SymbolTable} {n n' : Node} (hkind : n'.kind = n.kind)
    (htype : n'.type? = n.type?) (h : n'.children.map skeleton = n.children.map skeleton)
    (hn : Spelled symbols n) : Spelled symbols n' where
  type name hname := by
    rw [hkind]
    exact hn.type name (htype ▸ hname)
  declaration m hm := by
    rw [hkind, methodName_skeleton hkind h]
    exact hn.declaration m (htype ▸ hm)
  call m via hm := by
    rw [hkind, methodName_skeleton hkind h]
    exact hn.call m via (htype ▸ hm)

theorem mention_rename {n : Node} {info : TypeInfo} {m : Signature} (hinfo : n.type? = some info)
    (hm : info.method? = some m) (hname : methodName? n = some m.name)
    (happlies : r.applies m = true) :
    ∃ w, r.rename? n = some w ∧ mention? w = (mention? n).map r.mention := by
  obtain ⟨slot, hslot, _⟩ := Option.map_eq_some_iff.1 hname
  obtain ⟨w, hw⟩ : ∃ w, withMethodName? n r.newName = some w := by
    rw [withMethodName?, hslot]
    exact ⟨_, rfl⟩
  refine ⟨{ w with type? := n.type?.map fun info => info.renamed r.newName }, ?_, ?_⟩
  · rw [rename?, hw]
    rfl
  · have hrenamed := methodName_withMethodName hw
    have hmethod : (info.renamed r.newName).method?.isSome = true := by
      cases info <;> first | rfl | cases hm
    have hsame : methodName? { w with type? := n.type?.map fun info => info.renamed r.newName } =
        some r.newName := by
      rw [← hrenamed]
      exact methodName_skeleton rfl rfl
    rw [mention?, mention?, hsame]
    simp [hinfo, hm, hname, happlies, hmethod, mention]

theorem mention_stays {n : Node} {info : TypeInfo} {m : Signature} (hinfo : n.type? = some info)
    (hm : info.method? = some m) (happlies : r.applies m = false) :
    (mention? n).map r.mention = mention? n := by
  rw [mention?, hinfo]
  simp only [hm, Option.isSome_some, if_true, Option.map_map]
  cases methodName? n with
  | none => rfl
  | some name => simp [mention, hm, happlies]

theorem call_fst (n : Node) (seen : Seen) :
    (r.call n seen).1 =
      match n.type? with
      | some (.invocation m _) => if r.applies m then r.rename? n else none
      | _ => none := by
  rw [call]
  cases n.type? with
  | none => rfl
  | some info =>
      cases info with
      | type name => rfl
      | method m => rfl
      | invocation m via =>
          simp only
          cases r.applies m with
          | false => cases via <;> rfl
          | true =>
              cases r.rename? n with
              | none => rfl
              | some w =>
                  simp only [if_true]
                  split_ifs <;> rfl

theorem mention_leave {symbols : SymbolTable} {v : Node} (cursor : Cursor) (s : Seen)
    (hunit : v.kind ≠ .java .compilationUnit) (hspelled : Spelled symbols v) :
    mention? ((r.visitor.leave v cursor s).1.getD v) = (mention? v).map r.mention := by
  by_cases hdeclaration : v.kind = .java .methodDeclaration
  · rw [leave_declaration cursor s hdeclaration, declaration]
    split
    · rename_i m hm
      split_ifs with happlies
      · obtain ⟨w, hw, hmention⟩ := mention_rename hm rfl (hspelled.declaration m hm).2 happlies
        rw [hw]
        exact hmention
      · exact (mention_stays hm rfl (by simpa using happlies)).symm
    · rename_i hother
      have hcall : ∀ m via, v.type? ≠ some (.invocation m via) := by
        intro m via hm
        have hkind := (hspelled.call m via hm).1
        rw [hdeclaration] at hkind
        cases hkind
      rw [Option.getD_none, mention_of_other hother hcall]
      rfl
  · by_cases hcall : v.kind = .java .methodInvocation
    · rw [leave_call cursor s hcall, call_fst]
      split
      · rename_i m via hm
        split_ifs with happlies
        · obtain ⟨w, hw, hmention⟩ := mention_rename hm rfl (hspelled.call m via hm).2.1 happlies
          rw [hw]
          exact hmention
        · exact (mention_stays hm rfl (by simpa using happlies)).symm
      · rename_i hother
        rw [Option.getD_none, mention_of_other
          (fun m hm => hdeclaration (hspelled.declaration m hm).1) hother]
        rfl
    · rw [leave_other cursor s hunit hdeclaration hcall, Option.getD_none,
        mention_of_kind hdeclaration hcall]
      rfl

/-! ### The sweep -/

/-- The relation of a sweep to the nodes below the root of a unit that was attributed with a table,
and to their mentions. -/
def Mentions (r : Renaming) (symbols : SymbolTable) : VisitRelation Seen :=
  fun n s n' changed s' => r.Swaps n s n' changed s' ∧
    (n.Everywhere Inner → n.Everywhere (Spelled symbols) →
      n'.kind = n.kind ∧ mentions n' = (mentions n).map r.mention)

theorem mentions_of_swept {symbols : SymbolTable} {es es' : List Element} {s s' : Seen}
    {changed : Bool} (h : Swept (r.Mentions symbols) es s es' changed s')
    (hinner : ∀ c, Element.node c ∈ es → c.Everywhere Inner)
    (hspelled : ∀ c, Element.node c ∈ es → c.Everywhere (Spelled symbols)) :
    es'.map skeleton = es.map skeleton ∧
      (Node.preorderList es').filterMap mention? =
        ((Node.preorderList es).filterMap mention?).map r.mention := by
  induction h with
  | nil => exact ⟨rfl, rfl⟩
  | token _ ih =>
      obtain ⟨hskeleton, hmentions⟩ := ih (fun c hc => hinner c (List.mem_cons_of_mem _ hc))
        fun c hc => hspelled c (List.mem_cons_of_mem _ hc)
      exact ⟨by rw [List.map_cons, List.map_cons, hskeleton], hmentions⟩
  | node hn _ ih =>
      obtain ⟨hskeleton, hmentions⟩ := ih (fun c hc => hinner c (List.mem_cons_of_mem _ hc))
        fun c hc => hspelled c (List.mem_cons_of_mem _ hc)
      obtain ⟨hkind, hfirst⟩ := hn.2 (hinner _ List.mem_cons_self) (hspelled _ List.mem_cons_self)
      refine ⟨by rw [List.map_cons, List.map_cons, hskeleton, skeleton, skeleton, hkind], ?_⟩
      have hcons : ∀ (c : Node) (cs : List Element),
          (Node.preorderList (.node c :: cs)).filterMap mention? =
            mentions c ++ (Node.preorderList cs).filterMap mention? :=
        fun c cs => List.filterMap_append
      rw [hcons, hcons, hfirst, hmentions, List.map_append]

theorem leaves_mentions (symbols : SymbolTable) : r.visitor.Leaves (r.Mentions symbols) := by
  intro n cursor s s' es' changed hswept v left
  refine ⟨leaves_swaps (hswept.imp fun _ _ _ _ _ h => h.1), fun hinner hspelled => ?_⟩
  obtain ⟨hinner, hinnerBelow⟩ := everywhere_iff.1 hinner
  obtain ⟨hspelled, hspelledBelow⟩ := everywhere_iff.1 hspelled
  obtain ⟨hskeleton, hmentions⟩ := mentions_of_swept hswept hinnerBelow hspelledBelow
  have hname : methodName? v = methodName? n := @methodName_skeleton n v rfl hskeleton
  have hshape : CallShape v := @callShape_outline n v rfl
    (outline_skeleton hskeleton) (fun m hm => ⟨m, hm⟩) hinner.2
  have hspelled' : Spelled symbols v := spelled_skeleton (by rfl) (by rfl) hskeleton hspelled
  have hmention : mention? v = mention? n := by rw [mention?, mention?, hname]
  have hsteps : r.Steps v s' (left.1.getD v) left.1.isSome left.2 :=
    steps_leave cursor s' hinner.1 hshape
  have hleft : mention? (left.1.getD v) = (mention? v).map r.mention :=
    mention_leave cursor s' hinner.1 hspelled'
  refine ⟨hsteps.kind, ?_⟩
  rw [mentions, mentions, filterMap_preorder, filterMap_preorder mention? n, List.map_append,
    ← hmentions, hleft, hsteps.below, hmention]
  congr 1
  cases mention? n <;> rfl

theorem mentions_pass {symbols : SymbolTable} {unit : Node} (hdot : '.' ∉ r.newName.toList)
    (hunit : Attributed unit) (hspelled : unit.Everywhere (Spelled symbols)) :
    mentions ((r.pass unit).getD unit) = (mentions unit).map r.mention := by
  have haccepts : r.visitor.accepts unit = true := by simp [visitor, Hooks.visitor, hunit.kind]
  obtain ⟨cursor, es', below, seen, hswept, hresult, _⟩ :=
    Visitor.walk_left (fun _ _ _ => rfl) (leaves_mentions (r := r) symbols) haccepts {}
  rw [leave_unit (v := { unit with children := es' }) cursor seen hunit.kind, imports_eq] at hresult
  have hall := swapAll_of_swept (hswept.imp fun _ _ _ _ _ h => h.1) (inner_of_attributed hunit)
  obtain ⟨_, hmentions⟩ :=
    mentions_of_swept hswept (inner_of_attributed hunit) (everywhere_iff.1 hspelled).2
  have hroot : ∀ es, mention? { unit with children := es } = none :=
    fun es => mention_of_kind (by simp [hunit.kind]) (by simp [hunit.kind])
  have hedited : (Node.preorderList (r.edited { unit with children := es' } seen)).filterMap mention? =
      (Node.preorderList es').filterMap mention? :=
    filterMap_edited hdot (attributed_swept hunit hall)
      (fun n hn => mention_of_kind (by simp [hn]) (by simp [hn]))
      fun n hn => mention_of_kind (by simp [hn]) (by simp [hn])
  have hunitMention : mention? unit = none :=
    mention_of_kind (by simp [hunit.kind]) (by simp [hunit.kind])
  rw [pass, Recipe.passOf, hresult, mentions, mentions, filterMap_preorder,
    filterMap_preorder mention? unit, hunitMention, hroot]
  exact hedited.trans hmentions

end Renaming

/-! ### Source sets -/

open Codemod.Source

/-- The attributed files of the inputs that parse. -/
def filesOf (inputs : List (String × String)) : List SourceFile :=
  successes (parseJavaSet inputs)

/-- The units of the inputs that parse. -/
def unitsOf (inputs : List (String × String)) : List Node :=
  successes (inputs.map fun i => parseJava i.1 i.2)

theorem mem_successes {ε α : Type} {results : List (Except ε α)} {a : α} :
    a ∈ successes results ↔ .ok a ∈ results := by
  rw [successes, List.mem_filterMap]
  constructor
  · rintro ⟨result, hresult, h⟩
    cases result with
    | error e => cases h
    | ok b =>
        cases h
        exact hresult
  · exact fun h => ⟨_, h, rfl⟩

theorem parseJava_ok {path text : String} {unit : Node} :
    parseJava path text = .ok unit ↔ parseUnit text = .ok unit := by
  rw [parseJava, mapError_eq_ok]

theorem mem_unitsOf {inputs : List (String × String)} {unit : Node} :
    unit ∈ unitsOf inputs ↔ ∃ i ∈ inputs, parseUnit i.2 = .ok unit := by
  rw [unitsOf, mem_successes, List.mem_map]
  simp only [parseJava_ok]

theorem parseJavaSet_eq (inputs : List (String × String)) :
    parseJavaSet inputs = inputs.map fun i => (parseJava i.1 i.2).map fun unit =>
      ⟨i.1, i.2, attributeUnit (.ofUnits (unitsOf inputs)) unit⟩ := by
  rw [parseJavaSet, List.map_map, List.map_map]
  rfl

/-- The files of a source set are the attributed units of the inputs that parse. -/
theorem mem_files {inputs : List (String × String)} {file : SourceFile} :
    file ∈ filesOf inputs ↔ ∃ i ∈ inputs, ∃ unit, parseUnit i.2 = .ok unit ∧
      file = ⟨i.1, i.2, attributeUnit (.ofUnits (unitsOf inputs)) unit⟩ := by
  rw [filesOf, mem_successes, parseJavaSet_eq, List.mem_map]
  constructor
  · rintro ⟨i, hi, h⟩
    cases hparse : parseJava i.1 i.2 with
    | error e =>
        rw [hparse] at h
        cases h
    | ok unit =>
        rw [hparse] at h
        cases h
        exact ⟨i, hi, unit, parseJava_ok.1 hparse, rfl⟩
  · rintro ⟨i, hi, unit, hparse, rfl⟩
    refine ⟨i, hi, ?_⟩
    rw [parseJava_ok.2 hparse]
    rfl

/-- Each call that resolved means a method that a declaration in the source set carries, so that a
pattern selects the one if it selects the other; and the recipe that renames methods decides by
the method on each declaration and each call of the source set. -/
theorem calls_follow_declarations (inputs : List (String × String)) :
    (∀ file ∈ filesOf inputs, ∀ call ∈ file.root.preorder, ∀ m viaStaticImport,
      call.type? = some (.invocation m viaStaticImport) →
        ∃ home ∈ filesOf inputs, ∃ declaration ∈ home.root.preorder,
          declaration.kind = .java .methodDeclaration ∧ declaration.type? = some (.method m) ∧
            ∀ pattern, selectedBy pattern call = selectedBy pattern declaration) ∧
    ∀ pattern newName, (changeMethodName pattern newName).validate = [] →
      ∃ r, renaming? pattern newName = some r ∧ ∀ file ∈ filesOf inputs,
        mentions ((changeMethodName pattern newName).apply ⟨file.root, []⟩).root =
          (mentions file.root).map r.mention := by
  have hspelled : ∀ file ∈ filesOf inputs,
      file.root.Everywhere (Spelled (.ofUnits (unitsOf inputs))) := by
    intro file hfile
    obtain ⟨i, _, unit, hparse, rfl⟩ := mem_files.1 hfile
    exact spelled_attributeUnit hparse _
  refine ⟨fun file hfile call hcall m via hm => ?_, fun pattern newName hvalid => ?_⟩
  · obtain ⟨_, _, c, hc, hmem⟩ := (hspelled file hfile call hcall).call m via hm
    obtain ⟨unit, hunit, d, hd, member, hmember, hkind, hmethod⟩ := declares_of_mem hc hmem
    obtain ⟨i, hi, hparse⟩ := mem_unitsOf.1 hunit
    obtain ⟨declaration, hdeclaration, hisDeclaration, htype⟩ :=
      declared_attributeUnit hparse _ hd hmember hkind hmethod
    refine ⟨_, mem_files.2 ⟨i, hi, unit, hparse, rfl⟩, declaration, hdeclaration, hisDeclaration,
      htype, fun pattern => ?_⟩
    rw [selectedBy, selectedBy, hm, htype]
    rfl
  · obtain ⟨r, hr, hdot, _⟩ := renaming_of_valid hvalid
    refine ⟨r, hr, fun file hfile => ?_⟩
    have hnames := hspelled file hfile
    obtain ⟨i, _, unit, hparse, rfl⟩ := mem_files.1 hfile
    rw [root_apply hr]
    exact Renaming.mentions_pass hdot (attributed_of_parseUnit hparse _).1 hnames

/-- An inherited method is renamed where it is declared and where the other file calls it, and its
overload stays. -/
theorem calls_follow_declarations_inherited :
    let inputs :=
      [ ("B.java", "package p;\nclass B \x7b class C extends D \x7b\x7d \x7d\n"),
        ("D.java", "package p;\nclass D \x7b void f(B.C[] c) \x7b\x7d void f() \x7b\x7d \x7d\n"),
        ("A.java", "import p.B;\nclass A extends B.C \x7b void g() \x7b f(null); f(); \x7d \x7d\n") ]
    let recipe := changeMethodName (some "p.D f(p.B.C[])") (some "h")
    (filesOf inputs).map (fun file =>
      (mentions (recipe.apply ⟨file.root, []⟩).root).map Prod.fst) =
        [[], ["h", "f"], ["g", "h", "f"]] := by
  intro inputs recipe
  have hvalid : recipe.validate = [] := by decide +kernel
  obtain ⟨_, hrenames⟩ := calls_follow_declarations inputs
  obtain ⟨r, hr, hmentions⟩ := hrenames _ _ hvalid
  have hnames : (renaming? (some "p.D f(p.B.C[])") (some "h")).map (fun r =>
      (filesOf inputs).map fun file =>
        ((mentions file.root).map r.mention).map Prod.fst) =
          some [[], ["h", "f"], ["g", "h", "f"]] := by
    decide +kernel
  rw [hr, Option.map_some, Option.some.injEq] at hnames
  rw [← hnames]
  exact List.map_congr_left fun file hfile => by rw [hmentions file hfile]

end Codemod.Recipes.MethodName
