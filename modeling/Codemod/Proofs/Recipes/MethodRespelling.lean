import Codemod.Proofs.Java.Respelling
import Codemod.Proofs.Recipes.MethodMentions

/-!
What one application of the recipe that renames methods makes of a unit, said as a map of its tree:
each declaration and each call that carries a selected method gets the new name, and then the
imports are edited.
-/

namespace Codemod.Recipes.MethodName

open Codemod.Tree Codemod.Java

namespace Renaming

/-- What is made of a node when the nodes below it have been renamed. -/
def respellHere (r : Renaming) (n : Node) : Node :=
  match n.kind with
  | .java .methodDeclaration => (r.declaration n).getD n
  | .java .methodInvocation => (r.call n {}).1.getD n
  | _ => n

mutual

/-- The tree with the new name at each declaration and each call that carries a selected method. -/
def respell (r : Renaming) : Node → Node
  | ⟨kind, lead, children, markers, type?⟩ =>
      r.respellHere ⟨kind, lead, r.respellList children, markers, type?⟩

/-- The child with the new name at each declaration and each call that carries a selected method. -/
def respellElement (r : Renaming) : Element → Element
  | .node n => .node (r.respell n)
  | .token t => .token t

/-- The children with the new name at each declaration and each call that carries a selected
method. -/
def respellList (r : Renaming) : List Element → List Element
  | [] => []
  | e :: es => r.respellElement e :: r.respellList es

end

variable {r : Renaming}

theorem respellList_eq_mapNode (es : List Element) :
    r.respellList es = es.map (Element.mapNode r.respell) := by
  induction es with
  | nil => rfl
  | cons e es ih =>
      rw [respellList, ih, List.map_cons]
      cases e <;> rfl

theorem respell_eq (n : Node) :
    r.respell n = r.respellHere { n with children := n.children.map (Element.mapNode r.respell) } := by
  obtain ⟨kind, lead, children, markers, type?⟩ := n
  rw [respell, respellList_eq_mapNode]

/-- A node stays as it is, or the method that it carries is selected and it gets the new name. -/
theorem respellHere_cases (n : Node) :
    r.respellHere n = n ∨
      ∃ info m w, n.type? = some info ∧ info.method? = some m ∧ r.applies m = true ∧
        r.rename? n = some w ∧ r.respellHere n = w := by
  rw [respellHere]
  split
  · rw [declaration]
    split
    · rename_i m hm
      split_ifs with happlies
      · cases hw : r.rename? n with
        | none => exact .inl rfl
        | some w => exact .inr ⟨_, m, w, hm, rfl, happlies, rfl, rfl⟩
      · exact .inl rfl
    · exact .inl rfl
  · rw [call_fst]
    split
    · rename_i m via hm
      split_ifs with happlies
      · cases hw : r.rename? n with
        | none => exact .inl rfl
        | some w => exact .inr ⟨_, m, w, hm, rfl, happlies, rfl, rfl⟩
      · exact .inl rfl
    · exact .inl rfl
  · exact .inl rfl

theorem respellHere_other {n : Node} (hn : IsNameless n.kind) : r.respellHere n = n := by
  rw [respellHere]
  split
  · rename_i hkind
    rw [hkind] at hn
    cases hn
  · rename_i hkind
    rw [hkind] at hn
    cases hn
  · rfl

theorem rename_nodes {v w : Node} (hw : r.rename? v = some w) :
    w.children.map Element.node? = v.children.map Element.node? ∧
      w.children.map Element.outline = v.children.map Element.outline ∧
        (methodNameSlot? v).isSome = true := by
  obtain ⟨w₁, hw₁, rfl⟩ := Option.map_eq_some_iff.1 hw
  obtain ⟨slot, hslot, _⟩ := Option.map_eq_some_iff.1 hw₁
  obtain ⟨front, t, behind, hchildren, rfl⟩ := withMethodName_eq hw₁
  refine ⟨?_, ?_, by rw [hslot]; rfl⟩
  · rw [hchildren]
    simp [Element.node?]
  · rw [hchildren]
    simp [Element.outline]

theorem respellHere_nodes (v : Node) :
    (r.respellHere v).kind = v.kind ∧
      (r.respellHere v).children.map Element.node? = v.children.map Element.node? ∧
        (r.respellHere v).children.map Element.outline = v.children.map Element.outline := by
  rcases respellHere_cases (r := r) v with hsame | ⟨info, m, w, _, _, _, hw, hrespelled⟩
  · rw [hsame]
    exact ⟨rfl, rfl, rfl⟩
  · obtain ⟨hnodes, houtline, _⟩ := rename_nodes hw
    rw [hrespelled]
    exact ⟨(rename_type hw).1, hnodes, houtline⟩

theorem kind_respell (n : Node) : (r.respell n).kind = n.kind := by
  rw [respell_eq]
  exact (respellHere_nodes _).1

theorem skeleton_mapNode {φ : Node → Node} (h : ∀ n, (φ n).kind = n.kind) (es : List Element) :
    (es.map (Element.mapNode φ)).map skeleton = es.map skeleton := by
  rw [List.map_map]
  congr 1
  funext e
  cases e with
  | node n => exact congrArg Sum.inl (h n)
  | token t => rfl

/-- The nodes below a respelled one. -/
theorem nodes_respell (n : Node) :
    (r.respell n).children.map Element.node? =
      (n.children.map (Element.mapNode r.respell)).map Element.node? := by
  rw [respell_eq]
  exact (respellHere_nodes _).2.1

theorem filterMap_eq_of_map {α β : Type} {f : α → Option β} {xs ys : List α}
    (h : xs.map f = ys.map f) : xs.filterMap f = ys.filterMap f := by
  have hid : ∀ zs : List α, zs.filterMap f = (zs.map f).filterMap id := by
    intro zs
    rw [List.filterMap_map]
    rfl
  rw [hid, hid ys, h]

theorem respelling_respell (r : Renaming) : Respelling r.respell where
  kind := kind_respell
  childNodes n := by
    rw [Node.childNodes, filterMap_eq_of_map (nodes_respell n), filterMap_node_mapNode]
    rfl
  children n := by
    rw [respell_eq]
    rcases respellHere_cases (r := r)
      { n with children := n.children.map (Element.mapNode r.respell) } with
      hsame | ⟨info, m, w, _, _, _, hw, _⟩
    · rw [hsame]
      exact .inl rfl
    · refine .inr ?_
      have hslot := (rename_nodes hw).2.2
      rwa [slot_outline (by rfl) (outline_skeleton (skeleton_mapNode kind_respell n.children))] at hslot

/-- A tree without declarations and calls stays as it is. -/
theorem respell_eq_self {n : Node} (h : n.Everywhere fun m => IsNameless m.kind) :
    r.respell n = n := by
  induction n using Node.induction_on with
  | step n ih =>
      obtain ⟨hn, hbelow⟩ := everywhere_iff.1 h
      have hsame : n.children.map (Element.mapNode r.respell) = n.children := by
        refine (List.map_congr_left fun e he => ?_).trans (List.map_id _)
        cases e with
        | node c => exact congrArg Element.node (ih c he (hbelow c he))
        | token t => rfl
      rw [respell_eq, hsame]
      cases n
      exact respellHere_other hn

/-- A node that carries no method stays as it is, but for the nodes below it. -/
theorem respell_of_untyped {n : Node} (h : n.type? = none) :
    r.respell n = { n with children := n.children.map (Element.mapNode r.respell) } := by
  rw [respell_eq]
  rcases respellHere_cases (r := r)
    { n with children := n.children.map (Element.mapNode r.respell) } with
    hsame | ⟨info, m, w, hinfo, _⟩
  · exact hsame
  · cases h.symm.trans hinfo

/-! ### The sweep -/

theorem leave_eq (v : Node) (cursor : Cursor) (s : Seen) (hunit : v.kind ≠ .java .compilationUnit) :
    (r.visitor.leave v cursor s).1.getD v = r.respellHere v := by
  rw [respellHere]
  split
  · rename_i hkind
    rw [leave_declaration cursor s hkind]
  · rename_i hkind
    rw [leave_call cursor s hkind, call_fst, call_fst]
  · rename_i hdeclaration hcall
    rw [leave_other cursor s hunit hdeclaration hcall]
    rfl

theorem mention_respell {symbols : SymbolTable} {n : Node} (hunit : n.kind ≠ .java .compilationUnit)
    (hspelled : Spelled symbols n) : mention? (r.respell n) = (mention? n).map r.mention := by
  obtain ⟨v, hv⟩ : ∃ v, v = { n with children := n.children.map (Element.mapNode r.respell) } :=
    ⟨_, rfl⟩
  have hskeleton : v.children.map skeleton = n.children.map skeleton := by
    rw [hv]
    exact skeleton_mapNode kind_respell n.children
  have hkind : v.kind = n.kind := by rw [hv]
  have htype : v.type? = n.type? := by rw [hv]
  rw [respell_eq, ← hv, ← leave_eq v [] {} (hkind ▸ hunit),
    mention_leave [] {} (hkind ▸ hunit) (spelled_skeleton hkind htype hskeleton hspelled),
    mention_skeleton hkind htype hskeleton]

theorem mention_eq_some {n : Node} {name : String} {info : TypeInfo} :
    mention? n = some (name, info) ↔
      n.type? = some info ∧ info.method?.isSome = true ∧ methodName? n = some name := by
  rw [mention?]
  cases n.type? with
  | none => simp
  | some info' =>
      simp only [Option.some.injEq]
      split_ifs with hmethod
      · rw [Option.map_eq_some_iff]
        constructor
        · rintro ⟨_, hname, ⟨⟩⟩
          exact ⟨rfl, hmethod, hname⟩
        · rintro ⟨rfl, _, hname⟩
          exact ⟨name, hname, rfl⟩
      · refine iff_of_false (by simp) ?_
        rintro ⟨rfl, h, _⟩
        exact hmethod h

/-- What attribution found out, with a selected method under the new name. -/
def renamedInfo (r : Renaming) : TypeInfo → TypeInfo
  | .type name => .type name
  | .method m => .method (r.renamed m)
  | .invocation m viaStaticImport => .invocation (r.renamed m) viaStaticImport

/-- A node that carries a method carries it renamed, and has its name. -/
theorem carried_respell {symbols : SymbolTable} {n : Node} {info : TypeInfo} {m : Signature}
    (hunit : n.kind ≠ .java .compilationUnit) (hspelled : Spelled symbols n)
    (htype : n.type? = some info) (hm : info.method? = some m) :
    (r.respell n).type? = some (r.renamedInfo info) ∧
      methodName? (r.respell n) = some (r.renamed m).name := by
  have hname : methodName? n = some m.name := by
    cases info with
    | type name => cases hm
    | method m' =>
        cases hm
        exact (hspelled.declaration m htype).2
    | invocation m' via =>
        cases hm
        exact (hspelled.call m via htype).2.1
  have hmention := mention_respell (r := r) hunit hspelled
  rw [mention_eq_some.2 ⟨htype, by rw [hm]; rfl, hname⟩, Option.map_some, mention, hm,
    Option.any_some] at hmention
  have hrenamed : (if r.applies m = true then (r.newName, info.renamed r.newName) else (m.name, info)) =
      ((r.renamed m).name, r.renamedInfo info) := by
    cases info <;> cases hm <;> simp only [renamed, renamedInfo, TypeInfo.renamed] <;>
      split_ifs <;> rfl
  rw [hrenamed, mention_eq_some] at hmention
  exact ⟨hmention.1, hmention.2.2⟩

/-- The relation of a sweep to the nodes below the root of an attributed unit: it puts the new name
wherever a selected method is carried. -/
def Respells (r : Renaming) : VisitRelation Seen :=
  fun n s n' changed s' => r.Swaps n s n' changed s' ∧ (n.Everywhere Inner → n' = r.respell n)

theorem mapNode_of_swept {es es' : List Element} {s s' : Seen} {changed : Bool}
    (h : Swept r.Respells es s es' changed s')
    (hes : ∀ c, Element.node c ∈ es → c.Everywhere Inner) :
    es' = es.map (Element.mapNode r.respell) := by
  induction h with
  | nil => rfl
  | token _ ih => rw [List.map_cons, ih fun c hc => hes c (List.mem_cons_of_mem _ hc)]; rfl
  | node hn _ ih =>
      rw [List.map_cons, ih fun c hc => hes c (List.mem_cons_of_mem _ hc),
        hn.2 (hes _ List.mem_cons_self)]
      rfl

theorem leaves_respells : r.visitor.Leaves r.Respells := by
  intro n cursor s s' es' changed hswept v left
  refine ⟨leaves_swaps (hswept.imp fun _ _ _ _ _ h => h.1), fun hinner => ?_⟩
  obtain ⟨hn, hbelow⟩ := everywhere_iff.1 hinner
  have hes' := mapNode_of_swept hswept hbelow
  have hleft : left.1.getD v = r.respellHere v := leave_eq v cursor s' hn.1
  rw [hleft, respell_eq, ← hes']

/-- One application puts the new name wherever a selected method is carried, and then edits the
imports by the calls that it saw. -/
theorem pass_eq {unit : Node} (hunit : Attributed unit) :
    ∃ seen, r.Collects (staticCallsIn unit.children) {} seen ∧ Attributed (r.respell unit) ∧
      (r.pass unit).getD unit =
        { r.respell unit with children := r.edited (r.respell unit) seen } := by
  have haccepts : r.visitor.accepts unit = true := by simp [visitor, Hooks.visitor, hunit.kind]
  obtain ⟨cursor, es', below, seen, hswept, hresult, _⟩ :=
    Visitor.walk_left (fun _ _ _ => rfl) (leaves_respells (r := r)) haccepts {}
  have hall := swapAll_of_swept (hswept.imp fun _ _ _ _ _ h => h.1) (inner_of_attributed hunit)
  have hrespell : r.respell unit = { unit with children := es' } := by
    rw [respell_eq, mapNode_of_swept hswept (inner_of_attributed hunit)]
    exact respellHere_other (by rw [hunit.kind]; rfl)
  rw [leave_unit (v := { unit with children := es' }) cursor seen hunit.kind, imports_eq] at hresult
  rw [hrespell]
  exact ⟨seen, hall.collects, attributed_swept hunit hall, hresult⟩

end Renaming

end Codemod.Recipes.MethodName
