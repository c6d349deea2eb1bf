import Codemod.Proofs.Java.MethodNames
import Codemod.Proofs.Java.StaticImports
import Codemod.Recipes.MethodName

/-!
What the recipe that renames methods makes of the declarations and calls in a unit. One sweep
settles all of them: a second one finds nothing to rename below the imports, and the calls
through static imports that it sees are those of the first under their new names.
-/

namespace Codemod.Java

open Codemod.Tree

theorem callShape_outline {n n' : Node} (hkind : n'.kind = n.kind)
    (h : n'.children.map Element.outline = n.children.map Element.outline)
    (htype : ∀ m, n'.type? = some (.invocation m true) →
      ∃ m', n.type? = some (.invocation m' true)) (hn : CallShape n) : CallShape n' := by
  intro m hcall hm
  obtain ⟨m', hm'⟩ := htype m hm
  obtain ⟨hslot, hreceiver⟩ := hn m' (hkind.symm.trans hcall) hm'
  exact ⟨(slot_outline hkind h).trans hslot, (receiver_outline h).2 hreceiver⟩

end Codemod.Java

namespace Codemod.Recipes.MethodName

open Codemod.Tree Codemod.Java

/-- The method that a call means, if the call resolved through a static import. -/
def staticCall? (n : Node) : Option Signature :=
  if n.kind = .java .methodInvocation then
    match n.type? with
    | some (.invocation m true) => some m
    | _ => none
  else none

/-- The methods that the calls among some children mean through static imports. -/
def staticCallsIn (es : List Element) : List Signature :=
  (Node.preorderList es).filterMap staticCall?

/-- The methods that the calls in a tree mean through static imports. -/
def staticCalls (n : Node) : List Signature :=
  n.preorder.filterMap staticCall?

theorem staticCall_of_kind {n : Node} (h : n.kind ≠ .java .methodInvocation) :
    staticCall? n = none :=
  if_neg h

theorem staticCalls_eq (n : Node) :
    staticCalls n = (staticCall? n).toList ++ staticCallsIn n.children := by
  obtain ⟨kind, lead, children, markers, type?⟩ := n
  rw [staticCalls, Node.preorder, List.filterMap_cons]
  cases staticCall? ⟨kind, lead, children, markers, type?⟩ <;> rfl

theorem staticCallsIn_node (n : Node) (es : List Element) :
    staticCallsIn (.node n :: es) = staticCalls n ++ staticCallsIn es :=
  List.filterMap_append

namespace Renaming

variable {r : Renaming}

/-- The method as a call means it behind the renaming. -/
def renamed (r : Renaming) (m : Signature) : Signature :=
  if r.applies m then { m with name := r.newName } else m

theorem applies_renamed (m : Signature) : r.applies (r.renamed m) = false := by
  rw [renamed]
  split_ifs with h
  · simp [applies]
  · simpa using h

/-- A sweep over the calls adds to what was seen the calls that it renamed and the names that it
kept. -/
structure Collects (r : Renaming) (calls : List Signature) (s s' : Seen) : Prop where
  renamed : ∀ x, x ∈ s'.renamed ↔
    x ∈ s.renamed ∨ ∃ m ∈ calls, r.applies m = true ∧ x = (m.declaringType, m.name)
  kept : ∀ x, x ∈ s'.kept ↔ x ∈ s.kept ∨ ∃ m ∈ calls, r.applies m = false ∧ x = m.name

theorem Collects.nil (s : Seen) : r.Collects [] s s where
  renamed := by simp
  kept := by simp

theorem Collects.append {xs ys : List Signature} {s s' s'' : Seen} (h : r.Collects xs s s')
    (h' : r.Collects ys s' s'') : r.Collects (xs ++ ys) s s'' where
  renamed x := by
    rw [h'.renamed, h.renamed]
    simp only [List.mem_append, or_and_right, exists_or, or_assoc]
  kept x := by
    rw [h'.kept, h.kept]
    simp only [List.mem_append, or_and_right, exists_or, or_assoc]

theorem Collects.perm {xs ys : List Signature} {s s' : Seen} (h : r.Collects xs s s')
    (hmem : ∀ m, m ∈ ys ↔ m ∈ xs) : r.Collects ys s s' where
  renamed x := by simp only [h.renamed, hmem]
  kept x := by simp only [h.kept, hmem]

/-- A visit finds nothing to rename at the node. -/
def Settled (r : Renaming) (n : Node) : Prop :=
  (n.kind = .java .methodDeclaration → r.declaration n = none) ∧
    (n.kind = .java .methodInvocation → ∀ seen, (r.call n seen).1 = none)

/-- The node stands below the root of an attributed unit. -/
def Inner (n : Node) : Prop :=
  n.kind ≠ .java .compilationUnit ∧ CallShape n

/-- What leaving a node makes of it, when what is below it has been swept. -/
structure Steps (r : Renaming) (v : Node) (s : Seen) (w : Node) (left : Bool) (s' : Seen) :
    Prop where
  kind : w.kind = v.kind
  outline : w.children.map Element.outline = v.children.map Element.outline
  below : Node.preorderList w.children = Node.preorderList v.children
  nodes : ∀ c, Element.node c ∈ w.children → Element.node c ∈ v.children
  shape : CallShape w
  settled : r.Settled w
  calls : staticCall? w = (staticCall? v).map r.renamed
  collects : r.Collects (staticCall? v).toList s s'
  same : left = false → w = v
  stays : r.Settled v → left = false

theorem steps_stay {v : Node} {s s' : Seen} (hshape : CallShape v) (hsettled : r.Settled v)
    (hcalls : staticCall? v = (staticCall? v).map r.renamed)
    (hcollects : r.Collects (staticCall? v).toList s s') : r.Steps v s v false s' where
  kind := rfl
  outline := rfl
  below := rfl
  nodes := fun _ => id
  shape := hshape
  settled := hsettled
  calls := hcalls
  collects := hcollects
  same := fun _ => rfl
  stays := fun _ => rfl

theorem steps_rename {v w : Node} {s s' : Seen} (hw : r.rename? v = some w)
    (hshape : CallShape v) (hsettled : r.Settled w) (hunsettled : ¬ r.Settled v)
    (hcalls : staticCall? w = (staticCall? v).map r.renamed)
    (hcollects : r.Collects (staticCall? v).toList s s') : r.Steps v s w true s' := by
  obtain ⟨w₁, hw₁, rfl⟩ := Option.map_eq_some_iff.1 hw
  obtain ⟨front, t, behind, hchildren, rfl⟩ := withMethodName_eq hw₁
  have houtline : (front ++ Element.token { t with text := r.newName } :: behind).map
      Element.outline = v.children.map Element.outline := by
    rw [hchildren]
    simp [Element.outline]
  refine ⟨rfl, houtline, ?_, ?_, ?_, hsettled, hcalls, hcollects, by simp,
    fun h => absurd h hunsettled⟩
  · rw [hchildren, preorderList_append, preorderList_append]
    rfl
  · intro c hc
    rw [hchildren]
    simpa using hc
  · refine callShape_outline (n := v) rfl houtline ?_ hshape
    intro m hm
    obtain ⟨info, hinfo, hrenamed⟩ := Option.map_eq_some_iff.1 hm
    cases info with
    | type name => cases hrenamed
    | method m' => cases hrenamed
    | invocation m' via =>
        cases hrenamed
        exact ⟨m', hinfo⟩

theorem rename_type {v w : Node} (hw : r.rename? v = some w) :
    w.kind = v.kind ∧ w.type? = v.type?.map fun info => info.renamed r.newName := by
  obtain ⟨w₁, hw₁, rfl⟩ := Option.map_eq_some_iff.1 hw
  obtain ⟨front, t, behind, _, rfl⟩ := withMethodName_eq hw₁
  exact ⟨rfl, rfl⟩

theorem applies_newName (m : Signature) : r.applies { m with name := r.newName } = false := by
  simp [applies]

/-! ### Declarations -/

theorem steps_declaration {v : Node} (s : Seen) (hkind : v.kind = .java .methodDeclaration)
    (hshape : CallShape v) :
    r.Steps v s ((r.declaration v).getD v) (r.declaration v).isSome s := by
  have hcall : ∀ {n : Node}, n.kind = .java .methodDeclaration → staticCall? n = none :=
    fun h => staticCall_of_kind (by rw [h]; decide)
  have hcollects : r.Collects (staticCall? v).toList s s := by
    rw [hcall hkind]
    exact .nil s
  cases hw : r.declaration v with
  | none =>
      refine steps_stay hshape ⟨fun _ => hw, fun h => ?_⟩ (by rw [hcall hkind]; rfl) hcollects
      rw [hkind] at h
      cases h
  | some w =>
      have hunsettled : ¬ r.Settled v := fun h => by
        rw [h.1 hkind] at hw
        cases hw
      rw [declaration] at hw
      split at hw
      · rename_i m hm
        split_ifs at hw with happlies
        obtain ⟨hkind', htype⟩ := rename_type hw
        rw [hm] at htype
        have hsettled : r.Settled w := by
          refine ⟨fun _ => ?_, fun h => ?_⟩
          · rw [declaration, htype]
            simp only [Option.map_some, TypeInfo.renamed]
            exact if_neg (by simp [applies_newName])
          · rw [hkind', hkind] at h
            cases h
        refine steps_rename hw hshape hsettled hunsettled ?_ hcollects
        rw [hcall hkind, Option.getD_some, hcall (hkind'.trans hkind)]
        rfl
      · cases hw

/-! ### Calls -/

theorem rename_of_slot {v : Node} (h : (methodNameSlot? v).isSome = true) :
    ∃ w, r.rename? v = some w := by
  obtain ⟨slot, hslot⟩ := Option.isSome_iff_exists.1 h
  rw [rename?, withMethodName?, hslot]
  exact ⟨_, rfl⟩

theorem settled_of_call {v : Node} (hkind : v.kind = .java .methodInvocation)
    (h : ∀ seen, (r.call v seen).1 = none) : r.Settled v := by
  refine ⟨fun hd => ?_, fun _ => h⟩
  rw [hkind] at hd
  cases hd

theorem settled_renamed {v w : Node} {m : Signature} {via : Bool}
    (hkind : v.kind = .java .methodInvocation) (hm : v.type? = some (.invocation m via))
    (hw : r.rename? v = some w) :
    r.Settled w ∧ w.type? = some (.invocation { m with name := r.newName } via) := by
  obtain ⟨hkind', htype⟩ := rename_type hw
  rw [hm] at htype
  refine ⟨settled_of_call (hkind'.trans hkind) fun seen => ?_, htype⟩
  rw [call, htype]
  simp only [Option.map_some, TypeInfo.renamed, applies_newName]
  cases via <;> rfl

theorem staticCall_call {n : Node} (h : n.kind = .java .methodInvocation) :
    staticCall? n = match n.type? with
      | some (.invocation m true) => some m
      | _ => none :=
  if_pos h

section
variable {v : Node} (s : Seen) (hkind : v.kind = .java .methodInvocation) (hshape : CallShape v)
include hkind hshape

theorem steps_idle (hcall : ∀ seen, r.call v seen = (none, seen))
    (hnone : staticCall? v = none) :
    r.Steps v s ((r.call v s).1.getD v) (r.call v s).1.isSome (r.call v s).2 := by
  rw [hcall]
  refine steps_stay hshape (settled_of_call hkind fun seen => by rw [hcall]) ?_ ?_
  · rw [hnone]
    rfl
  · rw [hnone]
    exact .nil s

theorem steps_kept {m : Signature} (hm : v.type? = some (.invocation m true))
    (happlies : r.applies m = false) :
    r.Steps v s ((r.call v s).1.getD v) (r.call v s).1.isSome (r.call v s).2 := by
  have hcall : ∀ seen, r.call v seen = (none, { seen with kept := m.name :: seen.kept }) := by
    intro seen
    rw [call, hm]
    simp [happlies]
  have hstatic : staticCall? v = some m := by rw [staticCall_call hkind, hm]
  rw [hcall]
  refine steps_stay hshape (settled_of_call hkind fun seen => by rw [hcall]) ?_ ⟨?_, ?_⟩
  · simp [hstatic, Renaming.renamed, happlies]
  · simp [hstatic, happlies]
  · simp [hstatic, happlies, or_comm]

theorem steps_renamed {w : Node} {m : Signature} {via : Bool}
    (hm : v.type? = some (.invocation m via)) (happlies : r.applies m = true)
    (hw : r.rename? v = some w) :
    r.Steps v s ((r.call v s).1.getD v) (r.call v s).1.isSome (r.call v s).2 := by
  obtain ⟨hsettled, htype⟩ := settled_renamed hkind hm hw
  have hkind' := (rename_type hw).1.trans hkind
  have hseen : via = true → (Java.receiver? v).isNone = true := by
    rintro rfl
    rw [(hshape m hkind hm).2]
    rfl
  have hcall : r.call v s = (some w,
      if via then { s with renamed := (m.declaringType, m.name) :: s.renamed } else s) := by
    rw [call, hm]
    cases via with
    | false => simp [happlies, hw]
    | true => simp [happlies, hw, hseen rfl]
  have hunsettled : ¬ r.Settled v := fun h => by
    have hnone := h.2 hkind s
    rw [hcall] at hnone
    cases hnone
  have hcalls : staticCall? w = (staticCall? v).map r.renamed := by
    rw [staticCall_call hkind, staticCall_call hkind', hm, htype]
    cases via with
    | false => rfl
    | true => simp [Renaming.renamed, happlies]
  rw [hcall]
  refine steps_rename hw hshape hsettled hunsettled hcalls ?_
  rw [staticCall_call hkind, hm]
  cases via with
  | false => exact .nil s
  | true => exact ⟨by simp [happlies, or_comm], by simp [happlies]⟩

theorem steps_call :
    r.Steps v s ((r.call v s).1.getD v) (r.call v s).1.isSome (r.call v s).2 := by
  by_cases hinfo : ∃ m via, v.type? = some (.invocation m via)
  · obtain ⟨m, via, hm⟩ := hinfo
    cases happlies : r.applies m with
    | true =>
        cases hw : r.rename? v with
        | some w => exact steps_renamed s hkind hshape hm happlies hw
        | none =>
            -- Only a call through a static import is sure to have a name to rename.
            cases via with
            | true =>
                obtain ⟨w, hw'⟩ := rename_of_slot (r := r) (hshape m hkind hm).1
                rw [hw] at hw'
                cases hw'
            | false =>
                refine steps_idle s hkind hshape (fun seen => ?_) (by rw [staticCall_call hkind, hm])
                rw [call, hm]
                simp [happlies, hw]
    | false =>
        cases via with
        | true => exact steps_kept s hkind hshape hm happlies
        | false =>
            refine steps_idle s hkind hshape (fun seen => ?_) (by rw [staticCall_call hkind, hm])
            rw [call, hm]
            simp [happlies]
  · refine steps_idle s hkind hshape (fun seen => ?_) ?_
    · rw [call]
      split
      · rename_i m via hm
        exact absurd ⟨m, via, hm⟩ hinfo
      · rfl
    · rw [staticCall_call hkind]
      split
      · rename_i m hm
        exact absurd ⟨m, true, hm⟩ hinfo
      · rfl

end

/-! ### The sweep -/

theorem leave_declaration {v : Node} (cursor : Cursor) (s : Seen)
    (h : v.kind = .java .methodDeclaration) : r.visitor.leave v cursor s = (r.declaration v, s) := by
  simp [visitor, Hooks.visitor, h, Kind.isVisited]

theorem leave_call {v : Node} (cursor : Cursor) (s : Seen)
    (h : v.kind = .java .methodInvocation) : r.visitor.leave v cursor s = r.call v s := by
  simp [visitor, Hooks.visitor, h, Kind.isVisited]

theorem leave_unit {v : Node} (cursor : Cursor) (s : Seen)
    (h : v.kind = .java .compilationUnit) : r.visitor.leave v cursor s = (r.imports v s, s) := by
  simp [visitor, Hooks.visitor, h, Kind.isVisited]

theorem leave_other {v : Node} (cursor : Cursor) (s : Seen)
    (hunit : v.kind ≠ .java .compilationUnit) (hdeclaration : v.kind ≠ .java .methodDeclaration)
    (hcall : v.kind ≠ .java .methodInvocation) : r.visitor.leave v cursor s = (none, s) := by
  simp only [visitor, Hooks.visitor]
  split
  · rename_i k hk
    rw [hk] at hunit hdeclaration hcall
    split_ifs
    · split
      · exact absurd rfl hunit
      · exact absurd rfl hdeclaration
      · exact absurd rfl hcall
      · rfl
    · rfl
  · rfl

theorem steps_leave {v : Node} (cursor : Cursor) (s : Seen)
    (hunit : v.kind ≠ .java .compilationUnit) (hshape : CallShape v) :
    r.Steps v s ((r.visitor.leave v cursor s).1.getD v) (r.visitor.leave v cursor s).1.isSome
      (r.visitor.leave v cursor s).2 := by
  by_cases hdeclaration : v.kind = .java .methodDeclaration
  · rw [leave_declaration cursor s hdeclaration]
    exact steps_declaration s hdeclaration hshape
  · by_cases hcall : v.kind = .java .methodInvocation
    · rw [leave_call cursor s hcall]
      exact steps_call s hcall hshape
    · rw [leave_other cursor s hunit hdeclaration hcall]
      have hnone := staticCall_of_kind hcall
      refine steps_stay hshape ⟨fun h => absurd h hdeclaration, fun h => absurd h hcall⟩ ?_ ?_
      · rw [hnone]
        rfl
      · rw [hnone]
        exact .nil s

/-- What the sweep makes of a node below the root, and what it sees there. -/
structure Swap (r : Renaming) (n : Node) (s : Seen) (n' : Node) (changed : Bool) (s' : Seen) :
    Prop where
  kind : n'.kind = n.kind
  inner : n'.Everywhere Inner
  settled : n'.Everywhere r.Settled
  calls : staticCalls n' = (staticCalls n).map r.renamed
  collects : r.Collects (staticCalls n) s s'
  same : changed = false → n' = n
  stays : n.Everywhere r.Settled → changed = false

/-- What the sweep makes of some children, and what it sees there. -/
structure SwapAll (r : Renaming) (es : List Element) (s : Seen) (es' : List Element)
    (changed : Bool) (s' : Seen) : Prop where
  outline : es'.map Element.outline = es.map Element.outline
  inner : ∀ c, Element.node c ∈ es' → c.Everywhere Inner
  settled : ∀ c, Element.node c ∈ es' → c.Everywhere r.Settled
  calls : staticCallsIn es' = (staticCallsIn es).map r.renamed
  collects : r.Collects (staticCallsIn es) s s'
  same : changed = false → es' = es
  stays : (∀ c, Element.node c ∈ es → c.Everywhere r.Settled) → changed = false
  /-- The clauses among the children stay, if there is nothing to rename in them. -/
  clauses : (∀ c, Element.node c ∈ es → c.kind = .java .importClause → c.Everywhere r.Settled) →
    ∀ c, c.kind = .java .importClause → (Element.node c ∈ es' ↔ Element.node c ∈ es)

/-- The relation of a sweep to the nodes below the root of an attributed unit. -/
def Swaps (r : Renaming) : VisitRelation Seen :=
  fun n s n' changed s' => n.Everywhere Inner → r.Swap n s n' changed s'

theorem swapAll_of_swept {es es' : List Element} {s s' : Seen} {changed : Bool}
    (h : Swept r.Swaps es s es' changed s')
    (hes : ∀ c, Element.node c ∈ es → c.Everywhere Inner) : r.SwapAll es s es' changed s' := by
  induction h with
  | @nil s =>
      exact ⟨rfl, nofun, nofun, rfl, .nil s, fun _ => rfl, fun _ => rfl, fun _ _ _ => Iff.rfl⟩
  | @token t es es' s s' changed _ ih =>
      have hall := ih fun c hc => hes c (List.mem_cons_of_mem _ hc)
      refine ⟨by rw [List.map_cons, hall.outline, List.map_cons], ?_, ?_, hall.calls,
        hall.collects, fun h => by rw [hall.same h],
        fun h => hall.stays fun c hc => h c (List.mem_cons_of_mem _ hc), ?_⟩
      · intro c hc
        rcases List.mem_cons.1 hc with hc | hc
        · cases hc
        · exact hall.inner c hc
      · intro c hc
        rcases List.mem_cons.1 hc with hc | hc
        · cases hc
        · exact hall.settled c hc
      · intro h c hc
        have hiff := hall.clauses (fun d hd => h d (List.mem_cons_of_mem _ hd)) c hc
        simp [hiff]
  | @node n n' es es' s s' s'' first others hn _ ih =>
      have hall := ih fun c hc => hes c (List.mem_cons_of_mem _ hc)
      have hfirst := hn (hes n List.mem_cons_self)
      refine ⟨?_, ?_, ?_, ?_, ?_, ?_, ?_, ?_⟩
      · rw [List.map_cons, hall.outline, List.map_cons, Element.outline, Element.outline,
          hfirst.kind]
      · intro c hc
        rcases List.mem_cons.1 hc with hc | hc
        · cases hc
          exact hfirst.inner
        · exact hall.inner c hc
      · intro c hc
        rcases List.mem_cons.1 hc with hc | hc
        · cases hc
          exact hfirst.settled
        · exact hall.settled c hc
      · rw [staticCallsIn_node, staticCallsIn_node, hfirst.calls, hall.calls, List.map_append]
      · rw [staticCallsIn_node]
        exact hfirst.collects.append hall.collects
      · intro h
        obtain ⟨h₁, h₂⟩ := Bool.or_eq_false_iff.1 h
        rw [hfirst.same h₁, hall.same h₂]
      · intro h
        rw [hfirst.stays (h n List.mem_cons_self),
          hall.stays fun c hc => h c (List.mem_cons_of_mem _ hc)]
        rfl
      · intro h c hc
        have hiff := hall.clauses (fun d hd => h d (List.mem_cons_of_mem _ hd)) c hc
        by_cases hkind : n.kind = .java .importClause
        · rw [hfirst.same (hfirst.stays (h n List.mem_cons_self hkind))]
          simp [hiff]
        · have hne : c ≠ n := fun heq => hkind (heq ▸ hc)
          have hne' : c ≠ n' := fun heq => hkind (hfirst.kind ▸ heq ▸ hc)
          simp [hiff, hne, hne']

theorem leaves_swaps : r.visitor.Leaves r.Swaps := by
  intro n cursor s s' es' changed hswept v left hn
  obtain ⟨hinner, hchildren⟩ := everywhere_iff.1 hn
  have hall := swapAll_of_swept hswept hchildren
  have hshape : CallShape v :=
    callShape_outline (n := n) rfl hall.outline (fun m hm => ⟨m, hm⟩) hinner.2
  have hsteps : r.Steps v s' (left.1.getD v) left.1.isSome left.2 :=
    steps_leave cursor s' hinner.1 hshape
  have hcall : staticCall? v = staticCall? n := rfl
  have hpreorder := hsteps.below
  refine ⟨hsteps.kind, ?_, ?_, ?_, ?_, ?_, ?_⟩
  · refine everywhere_iff.2 ⟨⟨?_, hsteps.shape⟩, fun c hc => hall.inner c (hsteps.nodes c hc)⟩
    rw [hsteps.kind]
    exact hinner.1
  · exact everywhere_iff.2 ⟨hsteps.settled, fun c hc => hall.settled c (hsteps.nodes c hc)⟩
  · rw [staticCalls_eq, staticCalls_eq n, List.map_append, ← hall.calls, hsteps.calls, hcall]
    congr 1
    · cases staticCall? n <;> rfl
    · rw [staticCallsIn, hpreorder]
      rfl
  · rw [staticCalls_eq]
    refine (hall.collects.append hsteps.collects).perm fun m => ?_
    rw [hcall, List.mem_append, List.mem_append, or_comm]
  · intro h
    obtain ⟨hbelow, hleft⟩ := Bool.or_eq_false_iff.1 h
    rw [hsteps.same hleft]
    show ({ n with children := es' } : Node) = n
    rw [hall.same hbelow]
    cases n
    rfl
  · intro h
    obtain ⟨hsettled, hbelow⟩ := everywhere_iff.1 h
    have hsame := hall.stays hbelow
    have heq : v = n := by
      show ({ n with children := es' } : Node) = n
      rw [hall.same hsame]
      cases n
      rfl
    rw [hsame, hsteps.stays (heq ▸ hsettled)]
    rfl

end Renaming

end Codemod.Recipes.MethodName
