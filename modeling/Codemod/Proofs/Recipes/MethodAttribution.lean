import Codemod.Proofs.Java.Places
import Codemod.Proofs.Recipes.MethodResolution

/-!
Attribution behind a renaming. A unit that was renamed and then loses what attribution found out is
attributed again in step with the unit as it was: at each node the context differs by the static
imports alone, and what is found out is what the renamed unit carries.
-/

namespace Codemod.Java

open Codemod.Tree

/-! ### Entering a node -/

theorem enter_withStaticImports (context : Context) (staticImports : List (String × String))
    (n : Node) :
    (context.withStaticImports staticImports).enter n =
      (context.enter n).withStaticImports staticImports := by
  rw [Context.enter, Context.enter]
  split
  · cases className? n <;> rfl
  all_goals rfl

theorem Respelling.enter {φ : Node → Node} (h : Respelling φ) {n : Node}
    (hregular : n.Everywhere Regular) (context : Context) : context.enter (φ n) = context.enter n := by
  rw [Context.enter, Context.enter, h.kind]
  split
  · rename_i hkind
    rw [h.className (by rw [hkind]; rfl)]
  · rw [h.parameterFrame context.scope hregular]
  · rename_i hkind
    rw [h.catchFrame context.scope (by rw [hkind]; rfl)]
  all_goals rfl

/-! ### Clauses -/

/-- The tree is one of clauses and dotted names about which nothing was found out. -/
def Still (n : Node) : Prop :=
  n.Everywhere fun m =>
    (m.kind = .java .importClause ∨ m.kind = .java .qualifiedName) ∧ m.type? = none

theorem visits_still {symbols : SymbolTable} {n : Node} (h : Still n) (cursor : Cursor)
    (context : Context) :
    (attributionHooks symbols).visitor.Visits cursor n context n context := by
  refine visits_idle (h.imp fun m hm => ?_) cursor context
  rcases hm.1 with hkind | hkind <;> rw [hkind] <;> rfl

end Codemod.Java

namespace Codemod.Recipes.MethodName

open Codemod.Tree Codemod.Java

namespace Renaming

variable {r : Renaming} {symbols : SymbolTable} {imports : List (String × String)}

theorem type_respell {n : Node} (hspelled : Spelled symbols n) :
    (r.respell n).type? = n.type?.map r.renamedInfo := by
  cases htype : n.type? with
  | none =>
      rw [respell_of_untyped htype]
      exact htype
  | some info =>
      cases info with
      | method m =>
          have hkind := (hspelled.declaration m htype).1
          exact (carried_respell (by rw [hkind]; decide) hspelled htype rfl).1
      | invocation m via =>
          have hkind := (hspelled.call m via htype).1
          exact (carried_respell (by rw [hkind]; decide) hspelled htype rfl).1
      | type name =>
          have hkind := hspelled.type name htype
          rw [respell_eq, respellHere_other (by rw [hkind]; rfl)]
          exact htype

/-! ### Leaving a node -/

/-- The node behind the renaming, when attribution is about to leave it. -/
def behind (r : Renaming) (n : Node) : Node :=
  { r.respell n with type? := none }

section
variable {name : String} {calls : List Signature} {seen : Seen} {v n : Node} {cursor cursor' : Cursor}
  {context : Context} (hfollows : r.Follows name symbols imports calls seen)
  (himports : context.scope.staticImports = imports) (hcursor : SameKinds cursor cursor')
  (hn : n = { v with type? := found? symbols v cursor context })
  (hregular : n.Everywhere Regular) (hspelled : Spelled symbols n)
  (hname : methodName? n ≠ some r.newName) (hcalls : ∀ m, n.type? = some (.invocation m true) → m ∈ calls)
include hfollows himports hcursor hn hregular hspelled hname hcalls

theorem found_respell :
    found? (r.renamedTable symbols) (r.behind n) cursor'
        (context.withStaticImports (r.movedImports seen imports)) =
      (found? symbols v cursor context).map r.renamedInfo := by
  have hkind : n.kind = v.kind := by rw [hn]
  have hkind' : (r.behind n).kind = v.kind := (kind_respell n).trans hkind
  by_cases hclass : v.kind = .java .classDeclaration
  · rw [found_class (hkind'.trans hclass), found_class hclass]
    show context.pop.scope.classes.head?.map TypeInfo.type = _
    cases context.pop.scope.classes <;> rfl
  by_cases hmethod : v.kind = .java .methodDeclaration
  · rw [found_method hmethod] at hn
    rw [found_method (hkind'.trans hmethod), found_method hmethod, hcursor.isAnonymous]
    split_ifs at hn ⊢
    · rfl
    · show (context.pop.scope.currentClass?.bind
        (context.pop.scope.method? (r.respell n))).map TypeInfo.method = _
      cases hcurrent : context.pop.scope.currentClass? with
      | none => rfl
      | some current =>
          rw [hcurrent] at hn
          have hsame : context.pop.scope.method? n current = context.pop.scope.method? v current := by
            rw [hn]
            rfl
          have hsigned : n.type? = (context.pop.scope.method? n current).map .method := by
            rw [hsame, hn]
            rfl
          rw [Option.bind_some, Option.bind_some,
            method_respell hregular hspelled (hkind.trans hmethod) hsigned, hsame]
          cases context.pop.scope.method? v current <;> rfl
  by_cases hcall : v.kind = .java .methodInvocation
  · rw [found_call hcall] at hn
    rw [found_call (hkind'.trans hcall), found_call hcall]
    have hresolved : resolveCall? symbols context n = resolveCall? symbols context v := by
      rw [hn]
      rfl
    have htype : n.type? = resolveCall? symbols context n := by rw [hresolved, hn]
    rw [← hresolved]
    exact resolveCall_respell hfollows himports (hkind.trans hcall) hregular hspelled hname htype hcalls
  · rw [found_other hclass hmethod hcall, found_other]
    · rfl
    · rwa [hkind']
    · rwa [hkind']
    · rwa [hkind']

end

/-! ### The context behind a node -/

section
variable {v n : Node} {cursor cursor' : Cursor} {context : Context}

theorem declare_withStaticImports (name : String) (type : TypeRef) :
    (context.withStaticImports imports).declare name type =
      (context.declare name type).withStaticImports imports := by
  have hlocals : (context.withStaticImports imports).locals = context.locals := rfl
  rw [Context.declare, Context.declare, hlocals]
  cases context.locals <;> rfl

theorem declareVariables_respell (hparen : ∀ c ∈ symbols.classes, '(' ∉ c.name.toList)
    (hcursor : SameKinds cursor cursor') (hregular : v.Everywhere Regular) :
    declareVariables (r.renamedTable symbols) (r.respell v) cursor'
        (context.withStaticImports imports) =
      (declareVariables symbols v cursor context).withStaticImports imports := by
  have hfold : ∀ (declared : List (String × TypeRef)) (context : Context),
      declared.foldl (fun context w => context.declare w.1 w.2)
          (context.withStaticImports imports) =
        (declared.foldl (fun context w => context.declare w.1 w.2) context).withStaticImports
          imports := by
    intro declared
    induction declared with
    | nil => exact fun _ => rfl
    | cons w declared ih =>
        intro context
        rw [List.foldl_cons, List.foldl_cons, declare_withStaticImports, ih]
  have hdeclared : context.scope.declaredVariables (r.respell v)
      (typeOf (r.renamedTable symbols) (context.withStaticImports imports)) =
        context.scope.declaredVariables v (typeOf symbols context) :=
    (respelling_respell r).declaredVariables context.scope hregular
      fun c hc => typeOf_respell hparen hc
  rw [declareVariables, declareVariables, hcursor.isBody]
  split_ifs
  · rfl
  · rw [← hfold, ← hdeclared]
    rfl

theorem declareResource_respell (hkind : v.kind = .java .resource) :
    declareResource (r.respell v) (context.withStaticImports imports) =
      (declareResource v context).withStaticImports imports := by
  have hrespelling := respelling_respell r
  have hname : firstIdentifier? (r.respell v) = firstIdentifier? v :=
    hrespelling.className (by rw [hkind]; rfl)
  rw [declareResource, declareResource, hrespelling.firstChild, hname]
  cases htree : v.firstChild? (.java .typeTree) with
  | none => rfl
  | some tree =>
      have htreeKind : tree.kind = .java .typeTree := by simpa using List.find?_some htree
      cases firstIdentifier? v with
      | none => rfl
      | some name =>
          rw [← declare_withStaticImports]
          exact congrArg ((context.withStaticImports imports).declare name)
            (hrespelling.resolveTree context.scope (by rw [htreeKind]; rfl))

variable (r) (imports) in
theorem after_respell (hparen : ∀ c ∈ symbols.classes, '(' ∉ c.name.toList)
    (hcursor : SameKinds cursor cursor') (hregular : v.Everywhere Regular)
    (hnone : v.type? = none) (hn : n = { v with type? := found? symbols v cursor context }) :
    ((attributionHooks (r.renamedTable symbols)).visitor.leave (r.behind n) cursor'
        (context.withStaticImports imports)).2 =
      ((attributionHooks symbols).visitor.leave v cursor context).2.withStaticImports imports := by
  have hkind : (r.behind n).kind = v.kind := (kind_respell n).trans (by rw [hn])
  by_cases hclass : v.kind = .java .classDeclaration
  · rw [after_class hclass, after_class (hkind.trans hclass)]
    rfl
  by_cases hmethod : v.kind = .java .methodDeclaration
  · rw [after_method hmethod, after_method (hkind.trans hmethod)]
    rfl
  by_cases hdeclaration : v.kind = .java .variableDeclaration
  · rw [found_other hclass hmethod (by rw [hdeclaration]; decide)] at hn
    obtain rfl : n = v := hn.trans (withType_self hnone)
    rw [leave_visited hdeclaration, leave_visited (hkind.trans hdeclaration)]
    exact declareVariables_respell hparen hcursor hregular
  by_cases hresource : v.kind = .java .resource
  · rw [found_other hclass hmethod (by rw [hresource]; decide)] at hn
    obtain rfl : n = v := hn.trans (withType_self hnone)
    rw [leave_visited hresource, leave_visited (hkind.trans hresource)]
    exact declareResource_respell hresource
  · simp only [Hooks.visitor, attributionHooks, hkind]
    split
    · rename_i kind hjava
      split_ifs
      · split
        · exact absurd hjava hclass
        · exact absurd hjava hmethod
        · rfl
        · rfl
        · rfl
        · rfl
        · exact absurd hjava hdeclaration
        · exact absurd hjava hresource
        · rfl
        · rfl
      · rfl
    · rfl

end

/-! ### The walk -/

/-- The relation of attribution to a node, and in step with it to the renamed node behind the
renaming. -/
structure InStep (r : Renaming) (symbols : SymbolTable) (imports : List (String × String))
    (calls : List Signature) (seen : Seen) (cursor : Cursor) (n : Node) (s : Context) (n' : Node)
    (changed : Bool) (s' : Context) : Prop where
  attributing : Attributing symbols cursor n s n' changed s'
  visits : (attributionHooks symbols).visitor.Visits cursor n s n' s'
  behind : n.Everywhere Parsed → (n.Everywhere fun m => methodName? m ≠ some r.newName) →
    s.scope.staticImports = imports → (∀ m ∈ staticCalls n', m ∈ calls) →
      ∀ cursor', SameKinds cursor cursor' →
        (attributionHooks (r.renamedTable symbols)).visitor.Visits cursor' (r.respell n').untyped
          (s.withStaticImports (r.movedImports seen imports)) (r.respell n')
          (s'.withStaticImports (r.movedImports seen imports))

/-- What stands in place of some attributed children behind the renaming: the renamed nodes, but
other clauses may stand in place of a clause. -/
inductive Replaces (r : Renaming) : List Element → List Element → Prop where
  | nil : Replaces r [] []
  | token {t t' : Token} {es fs : List Element} (h : Replaces r es fs) :
      Replaces r (.token t :: es) (.token t' :: fs)
  | node {n : Node} {es fs : List Element} (h : Replaces r es fs) :
      Replaces r (.node n :: es) (.node (r.respell n) :: fs)
  | clause {n : Node} {clauses : List Node} {es fs : List Element} (hn : Still n)
      (hclauses : ∀ c ∈ clauses, Still c) (h : Replaces r es fs) :
      Replaces r (.node n :: es) (clauses.map .node ++ fs)

theorem replaces_of_nodes {es fs : List Element}
    (h : fs.map Element.node? = (es.map (Element.mapNode r.respell)).map Element.node?) :
    Replaces r es fs := by
  induction es generalizing fs with
  | nil =>
      obtain rfl := List.map_eq_nil_iff.1 h
      exact .nil
  | cons e es ih =>
      obtain ⟨f, fs, rfl, hf, hfs⟩ := List.map_eq_cons_iff.1 h
      cases e with
      | token t =>
          cases f with
          | token t' => exact .token (ih hfs)
          | node n => cases hf
      | node n =>
          cases f with
          | token t' => cases hf
          | node n' =>
              obtain rfl := Option.some.inj hf
              exact .node (ih hfs)

section
variable {name : String} {calls : List Signature} {seen : Seen}

theorem sweep_clauses {parent : Node} {cursor : Cursor} {clauses : List Node}
    (hclauses : ∀ c ∈ clauses, Still c) {fs : List Element} {s s' : Context}
    (h : ∀ index, ∃ changed, SweptAt (fun cursor n s n' _ s' =>
      (attributionHooks symbols).visitor.Visits cursor n s n' s') parent cursor index
        (Node.untypedList fs) s fs changed s') (index : Nat) :
    ∃ changed, SweptAt (fun cursor n s n' _ s' =>
      (attributionHooks symbols).visitor.Visits cursor n s n' s') parent cursor index
        (Node.untypedList (clauses.map .node ++ fs)) s (clauses.map .node ++ fs) changed s' := by
  induction clauses generalizing index with
  | nil => exact h index
  | cons c clauses ih =>
      obtain ⟨changed, hrest⟩ := ih (fun d hd => hclauses d (List.mem_cons_of_mem _ hd)) (index + 1)
      have hc := hclauses c List.mem_cons_self
      have hsame : c.untyped = c := untyped_eq_self (hc.imp fun _ => And.right)
      refine ⟨false || changed, ?_⟩
      rw [List.map_cons, List.cons_append, Node.untypedList, Element.untyped, hsame]
      exact .node (visits_still hc _ s) hrest

theorem sweep_inStep {parent parent' : Node} {cursor cursor' : Cursor} {index : Nat}
    {es es' fs : List Element} {s s' : Context} {changed : Bool}
    (h : SweptAt (r.InStep symbols imports calls seen) parent cursor index es s es' changed s')
    (hkind : parent'.kind = parent.kind) (hcursor : SameKinds cursor cursor')
    (hparsed : ∀ c, Element.node c ∈ es → c.Everywhere Parsed)
    (hnames : ∀ c, Element.node c ∈ es → c.Everywhere fun m => methodName? m ≠ some r.newName)
    (himports : s.scope.staticImports = imports) (hcalls : ∀ m ∈ staticCallsIn es', m ∈ calls)
    (hfs : Replaces r es' fs) (index' : Nat) :
    ∃ changed', SweptAt (fun cursor n s n' _ s' =>
      (attributionHooks (r.renamedTable symbols)).visitor.Visits cursor n s n' s') parent' cursor'
        index' (Node.untypedList fs)
        (s.withStaticImports (r.movedImports seen imports)) fs changed'
        (s'.withStaticImports (r.movedImports seen imports)) := by
  induction h generalizing fs index' with
  | nil =>
      cases hfs
      exact ⟨_, .nil⟩
  | token _ ih =>
      cases hfs with
      | token hfs =>
          obtain ⟨changed', hrest⟩ := ih (fun c hc => hparsed c (List.mem_cons_of_mem _ hc))
            (fun c hc => hnames c (List.mem_cons_of_mem _ hc)) himports hcalls hfs (index' + 1)
          exact ⟨changed', .token hrest⟩
  | @node index n n' es es' s s' s'' first others hn _ ih =>
      have hnParsed := hparsed n List.mem_cons_self
      have hattributes := hn.attributing hnParsed
      have hrest := fun {gs} (hgs : Replaces r es' gs) =>
        ih (fun c hc => hparsed c (List.mem_cons_of_mem _ hc))
          (fun c hc => hnames c (List.mem_cons_of_mem _ hc)) (by rw [hattributes.scope, himports])
          (fun m hm => hcalls m (by
            rw [staticCallsIn_node]
            exact List.mem_append_right _ hm)) hgs
      cases hfs with
      | node hfs =>
          obtain ⟨changed', hrest⟩ := hrest hfs (index' + 1)
          have hfirst := hn.behind hnParsed (hnames n List.mem_cons_self) himports
            (fun m hm => hcalls m (by
              rw [staticCallsIn_node]
              exact List.mem_append_left _ hm)) (⟨parent', index'⟩ :: cursor')
            (hcursor.cons hkind index index')
          exact ⟨false || changed', .node hfirst hrest⟩
      | clause hstill hclauses hfs =>
          have hsame : n' = n := by
            rw [← untyped_eq_self (hstill.imp fun _ => And.right), hattributes.untyped,
              untyped_eq_self (hnParsed.imp fun _ => Parsed.untyped)]
          subst hsame
          obtain ⟨_, rfl⟩ := hn.visits.unique (visits_still hstill _ s)
          exact sweep_clauses hclauses (hrest hfs) index'

theorem staticImports_enter (n : Node) (context : Context) :
    (context.enter n).scope.staticImports = context.scope.staticImports := by
  rw [Context.enter]
  split
  · cases className? n <;> rfl
  all_goals rfl

theorem leaves_inStep (hfollows : r.Follows name symbols imports calls seen) :
    (attributionHooks symbols).visitor.LeavesAt (r.InStep symbols imports calls seen) := by
  intro n cursor s s₁ es' changed hswept v left
  have hsweptAttributing := hswept.imp fun _ _ _ _ _ _ h => h.attributing
  have hattributing := leaves_attributing symbols hsweptAttributing
  refine ⟨hattributing,
    Visitor.visits_of_swept (fun _ _ _ => rfl) (hswept.imp fun _ _ _ _ _ _ h => h.visits), ?_⟩
  intro hparsed hnames himports hcalls cursor' hcursor
  obtain ⟨hn, hbelow⟩ := everywhere_iff.1 hparsed
  have hattributes := hattributing hparsed
  have hnone : v.type? = none := hn.untyped
  have hscope : s₁.scope.staticImports = imports := by
    rw [scope_of_attributed hsweptAttributing hbelow]
    exact (staticImports_enter n s).trans himports
  have hleft : left.1.getD v = { v with type? := found? symbols v cursor s₁ } := left_found hnone
  obtain ⟨n', hn'⟩ : ∃ n', left.1.getD v = n' := ⟨_, rfl⟩
  have huntyped : n'.untyped = n.untyped := hn' ▸ hattributes.untyped
  have hspelled : Spelled symbols n' := hn' ▸ hattributes.spelled _ (mem_preorder_self _)
  rw [hn'] at hcalls hleft ⊢
  have hchildren : n'.children = es' := by rw [hleft]
  have hkind : n'.kind = n.kind := by rw [hleft]
  have hregular : n'.Everywhere Regular := by
    rw [hleft]
    exact regular_visited hsweptAttributing hparsed _
  have hname : methodName? n' ≠ some r.newName := by
    rw [← methodName_untyped, huntyped, methodName_untyped]
    exact hnames n (mem_preorder_self n)
  have hcall : ∀ m, n'.type? = some (.invocation m true) → m ∈ calls := by
    intro m hm
    refine hcalls m ?_
    rw [staticCalls_eq, staticCall?, if_pos (hspelled.call m true hm).1, hm]
    exact List.mem_cons_self
  have hfound := found_respell hfollows hscope hcursor hleft hregular hspelled hname hcall
  have hafter := after_respell r (r.movedImports seen imports) hfollows.paren hcursor
    (regular_visited hsweptAttributing hparsed v.type?) hnone hleft
  have hroot : ((r.respell n').untyped).kind = n.kind := by
    rw [kind_untyped, kind_respell, hkind]
  have henter : ((attributionHooks (r.renamedTable symbols)).visitor.enter (r.respell n').untyped
      cursor' (s.withStaticImports (r.movedImports seen imports))).2 =
        ((attributionHooks symbols).visitor.enter n cursor s).2.withStaticImports
          (r.movedImports seen imports) := by
    show (s.withStaticImports _).enter (r.respell n').untyped = (s.enter n).withStaticImports _
    have hrespelled := (respelling_respell r).everywhere_regular.2 hregular
    rw [enter_withStaticImports, respelling_untyped.enter hrespelled,
      (respelling_respell r).enter hregular, ← respelling_untyped.enter hregular, huntyped,
      respelling_untyped.enter (hparsed.imp fun _ => Parsed.regular)]
  obtain ⟨changed', hswept'⟩ := sweep_inStep hswept hroot hcursor hbelow
    (everywhere_iff.1 hnames).2 ((staticImports_enter n s).trans himports)
    (fun m hm => hcalls m (by
      rw [staticCalls_eq, hchildren]
      exact List.mem_append_right _ hm))
    (replaces_of_nodes (by rw [nodes_respell, hchildren])) 0
  rw [← henter, ← children_untyped] at hswept'
  have hvisits := Visitor.visits_of_swept (fun _ _ _ => rfl) hswept'
  have hbehind : ({ (r.respell n').untyped with children := (r.respell n').children } : Node) =
      r.behind n' := by
    rw [behind]
    cases r.respell n'
    rfl
  have htype : (r.respell n').type? = (found? symbols v cursor s₁).map r.renamedInfo := by
    rw [type_respell hspelled, hleft]
  have hleft' : ((attributionHooks (r.renamedTable symbols)).visitor.leave (r.behind n') cursor'
      (s₁.withStaticImports (r.movedImports seen imports))).1.getD (r.behind n') = r.respell n' := by
    rw [left_found rfl, hfound]
    exact withType_self htype
  simp only [hbehind, hafter, hleft'] at hvisits
  exact hvisits

end

end Renaming

end Codemod.Recipes.MethodName
