import Codemod.Proofs.Recipes.Semicolons

/-!
Units without needless semicolons. The walk leaves none behind, so there is nothing for another one
to take away: trivia and markers that move do not bring a semicolon back, and constants that have
lost their terminator have no other.
-/

namespace Codemod.Recipes.Semicolons

open Codemod.Tree Codemod.Java

/-- The constants of an enumeration without items are one semicolon. -/
def ConstantsShaped (n : Node) : Prop :=
  n.kind = .java .enumConstants → ∀ t, Element.token t ∈ n.children → n.children = [.token t]

/-- No needless semicolon stands among the children of the node. -/
structure Trimmed (n : Node) : Prop where
  members : isBodyKind n.kind = true → ∀ e ∈ n.children, isEmpty e = false
  terminator : n.kind = .java .enumBody → ∀ {index constants},
    n.positionOf? (.java .enumConstants) = some index →
      n.children[index]? = some (.node constants) →
        ((n.children.drop (index + 1)).any fun e => e.node?.isSome) = false →
          withoutTerminator constants = none
  constants : ConstantsShaped n
  resources : n.kind = .java .tryResources → ∀ {index resource},
    lastResource? n.children = some index → n.children[index]? = some (.node resource) →
      resource.markers.get? .semicolon = none

/-- No needless semicolons stand below these children. -/
def AllTrimmed (es : List Element) : Prop :=
  ∀ c, Element.node c ∈ es → c.Everywhere Trimmed

/-! ### What a step asks for -/

theorem trimmed_other {n : Node} (hconstants : ConstantsShaped n) (hbody : isBodyKind n.kind = false)
    (hresources : n.kind ≠ .java .tryResources) : Trimmed n where
  members h := by
    rw [hbody] at h
    cases h
  terminator h := by
    rw [h] at hbody
    cases hbody
  constants := hconstants
  resources h := absurd h hresources

theorem Trimmed.congr {n n' : Node} (h : Trimmed n) (hkind : n'.kind = n.kind)
    (hchildren : n'.children = n.children) : Trimmed n' := by
  obtain ⟨kind, lead, children, markers, type?⟩ := n
  obtain ⟨kind', lead', children', markers', type?'⟩ := n'
  cases hkind
  cases hchildren
  exact ⟨h.members, h.terminator, h.constants, h.resources⟩

theorem everywhere_congr {n n' : Node} (h : n.Everywhere Trimmed) (hkind : n'.kind = n.kind)
    (hchildren : n'.children = n.children) : n'.Everywhere Trimmed := by
  obtain ⟨hn, hbelow⟩ := everywhere_iff.1 h
  exact everywhere_iff.2 ⟨hn.congr hkind hchildren, hchildren ▸ hbelow⟩

theorem withoutEmpty_eq_none {n : Node} (h : ∀ e ∈ n.children, isEmpty e = false) :
    withoutEmpty n = none := by
  refine if_neg ?_
  rw [List.any_eq_true]
  rintro ⟨e, he, hempty⟩
  rw [h e he] at hempty
  cases hempty

theorem trim_of_trimmed {n : Node} (h : Trimmed n) {kind : Java.Kind} (hkind : n.kind = .java kind) :
    trim kind n = none := by
  have hmembers : isBodyKind n.kind = true → withoutEmpty n = none := fun hbody =>
    withoutEmpty_eq_none (h.members hbody)
  cases kind with
  | block => exact hmembers (by rw [hkind]; rfl)
  | classBody => exact hmembers (by rw [hkind]; rfl)
  | enumBody =>
      have hnone := hmembers (by rw [hkind]; rfl)
      have hterminator : withoutConstantsTerminator n = none := by
        rw [withoutConstantsTerminator]
        cases hposition : n.positionOf? (.java .enumConstants) with
        | none => rfl
        | some index =>
            simp only
            split_ifs with hfollows
            · rfl
            · cases hchild : n.children[index]? with
              | none => rfl
              | some child =>
                  cases child with
                  | token t => rfl
                  | node constants =>
                      simp only
                      rw [h.terminator hkind hposition hchild (by simpa using hfollows)]
                      rfl
      rw [trim, trimEnumBody, hnone]
      simpa using hterminator
  | tryResources =>
      rw [trim, withoutResourceTerminator]
      cases hlast : lastResource? n.children with
      | none => rfl
      | some index =>
          cases hchild : n.children[index]? with
          | none => simp [hchild]
          | some child =>
              cases child with
              | token t => simp [hchild, Element.node?]
              | node resource =>
                  have hnone := h.resources hkind hlast hchild
                  simp [hchild, Element.node?, hnone]
  | _ => rfl

/-! ### Kinds of children -/

/-- The kinds of the nodes among some children. -/
def kinds (es : List Element) : List (Option Tree.Kind) :=
  es.map fun e => e.node?.map Node.kind

theorem kinds_reled {es es' : List Element} (h : List.Forall₂ Reled es es') :
    kinds es' = kinds es := by
  induction h with
  | nil => rfl
  | cons h _ ih =>
      obtain ⟨lead, rfl⟩ := h
      rw [kinds, List.map_cons, kinds, List.map_cons]
      congr 1
      cases ‹Element› <;> rfl

theorem kinds_set {es : List Element} {index : Nat} {c c' : Node}
    (hchild : es[index]? = some (.node c)) (hkind : c'.kind = c.kind) :
    kinds (es.set index (.node c')) = kinds es := by
  have hat : (kinds es)[index]? = some (some c'.kind) := by
    rw [kinds, List.getElem?_map, hchild, hkind]
    rfl
  obtain ⟨hindex, hat⟩ := List.getElem?_eq_some_iff.1 hat
  rw [kinds, List.map_set]
  show (kinds es).set index (some c'.kind) = kinds es
  rw [← hat, List.set_getElem_self]

theorem positionOf_kinds (n : Node) (kind : Tree.Kind) :
    n.positionOf? kind = (kinds n.children).findIdx? fun k => k.any (· == kind) := by
  rw [Node.positionOf?, kinds, List.findIdx?_map]
  congr 1
  funext e
  cases e <;> rfl

theorem lastResource_kinds (es : List Element) :
    lastResource? es = lastIndex? (fun k => k.any (· == .java .resource)) (kinds es) := by
  rw [lastResource?, kinds]
  induction es with
  | nil => rfl
  | cons e es ih =>
      rw [List.map_cons, lastIndex?, lastIndex?, ih]
      cases e <;> rfl

theorem any_node_kinds (es : List Element) (index : Nat) :
    ((es.drop index).any fun e => e.node?.isSome) =
      ((kinds es).drop index).any Option.isSome := by
  rw [kinds, ← List.map_drop, List.any_map]
  congr 1
  funext e
  cases e <;> rfl

theorem isEmpty_kinds {es : List Element} :
    (∀ e ∈ es, isEmpty e = false) ↔ some (.java .empty) ∉ kinds es := by
  rw [kinds, List.mem_map]
  constructor
  · rintro h ⟨e, he, hkind⟩
    have hno := h e he
    cases e with
    | token t => cases hkind
    | node n =>
        rw [isEmpty, Element.node?, Option.any_some, Option.some.inj hkind] at hno
        cases hno
  · intro h e he
    by_contra hempty
    refine h ⟨e, he, ?_⟩
    cases e with
    | token t => exact absurd rfl hempty
    | node n => simpa [isEmpty, Element.node?] using hempty

/-! ### Children that move -/

theorem allTrimmed_reled {es es' : List Element} (h : List.Forall₂ Reled es es')
    (hes : AllTrimmed es) : AllTrimmed es' := by
  induction h with
  | nil => exact hes
  | cons h _ ih =>
      intro c hc
      rcases List.mem_cons.1 hc with rfl | hc
      · obtain ⟨lead, hlead⟩ := h
        cases ‹Element› with
        | token t => cases hlead
        | node n =>
            cases hlead
            exact everywhere_congr (hes n List.mem_cons_self) rfl rfl
      · exact ih (fun c hc => hes c (List.mem_cons_of_mem _ hc)) c hc

theorem carried_set {n c c' : Node} {index : Nat} (removed : String)
    (hchild : n.children[index]? = some (.node c)) (hkind : c'.kind = c.kind)
    (hn : AllTrimmed n.children) (hc' : c'.Everywhere Trimmed) :
    let r := carryAfter (n.withChild index (.node c')) index removed
    r.kind = n.kind ∧ kinds r.children = kinds n.children ∧
      r.children[index]? = some (.node c') ∧ AllTrimmed r.children := by
  intro r
  obtain ⟨hr, -, hreled⟩ := reled_carryAfter (n.withChild index (.node c')) index removed
  obtain ⟨hindex, -⟩ := List.getElem?_eq_some_iff.1 hchild
  have hat : (n.children.set index (.node c'))[index]? = some (.node c') :=
    List.getElem?_set_self hindex
  refine ⟨hr, (kinds_reled hreled).trans (kinds_set hchild hkind), ?_, allTrimmed_reled hreled ?_⟩
  · show (carryAfter (n.withChild index (.node c')) index removed).children[index]? = _
    rw [carryAfter]
    split
    · split_ifs
      · exact hat
      · exact (List.getElem?_set_ne (Nat.succ_ne_self index)).trans hat
    · exact hat
  · intro d hd
    rcases List.mem_or_eq_of_mem_set hd with hd | hd
    · exact hn d hd
    · cases hd
      exact hc'

/-! ### What a step leaves -/

theorem settled_withoutEmpty {v : Node} (hv : AllTrimmed v.children) :
    let w := (withoutEmpty v).getD v
    w.kind = v.kind ∧ some (.java .empty) ∉ kinds w.children ∧ AllTrimmed w.children := by
  have hreled := reled_withoutEmpty v
  refine ⟨kind_withoutEmpty v, ?_, allTrimmed_reled hreled fun c hc => hv c (List.mem_filter.1 hc).1⟩
  rw [kinds_reled hreled, ← isEmpty_kinds]
  intro e he
  simpa using (List.mem_filter.1 he).2

theorem settled_withoutTerminator {c c' : Node} {removed : String} (hc : c.Everywhere Trimmed)
    (hkind : c.kind = .java .enumConstants) (h : withoutTerminator c = some (c', removed)) :
    c'.kind = c.kind ∧ withoutTerminator c' = none ∧ c'.Everywhere Trimmed := by
  obtain ⟨hshaped, hbelow⟩ := everywhere_iff.1 hc
  have hother : ∀ {n : Node}, n.kind = .java .enumConstants → ConstantsShaped n → Trimmed n := by
    intro n hn hconstants
    exact trimmed_other hconstants (by rw [hn]; rfl) (by rw [hn]; nofun)
  rw [withoutTerminator] at h
  split at h
  · rename_i last hlast
    obtain ⟨terminator, -, hc'⟩ := Option.map_eq_some_iff.1 h
    cases hc'
    have hfront := (List.dropLast_sublist c.children).subset
    refine ⟨rfl, ?_, everywhere_iff.2 ⟨hother hkind fun _ t ht => ?_, fun d hd => ?_⟩⟩
    · rw [withoutTerminator, List.getLast?_concat]
      simp [unmarked, Markers.get?_erase_self]
    · have hmem : Element.token t ∈ c.children :=
        hfront (by simpa using ht)
      rw [hshaped.constants hkind t hmem] at hlast
      cases hlast
    · rcases List.mem_append.1 hd with hd | hd
      · exact hbelow d (hfront hd)
      · cases List.mem_singleton.1 hd
        exact everywhere_congr (hbelow last (List.mem_of_getLast? hlast)) rfl rfl
  · rename_i t hlast
    split_ifs at h
    cases h
    have hchildren := hshaped.constants hkind t (List.mem_of_getLast? hlast)
    refine ⟨rfl, ?_, everywhere_iff.2 ⟨hother hkind fun _ t ht => ?_, fun d hd => ?_⟩⟩
    · rw [withoutTerminator, hchildren]
      rfl
    · rw [hchildren] at ht
      cases ht
    · rw [hchildren] at hd
      cases hd
  · cases h

theorem kind_of_positionOf {n c : Node} {kind : Tree.Kind} {index : Nat}
    (hposition : n.positionOf? kind = some index) (hchild : n.children[index]? = some (.node c)) :
    c.kind = kind := by
  obtain ⟨hindex, hat, -⟩ := List.findIdx?_eq_some_iff_getElem.1 hposition
  rw [(List.getElem?_eq_some_iff.1 hchild).2] at hat
  simpa [Element.node?] using hat

/-- What is made of the body of an enumeration for its constants. -/
theorem withoutConstantsTerminator_eq_some {w r : Node}
    (h : withoutConstantsTerminator w = some r) :
    ∃ index constants trimmed removed, w.positionOf? (.java .enumConstants) = some index ∧
      w.children[index]? = some (.node constants) ∧
      withoutTerminator constants = some (trimmed, removed) ∧
      r = carryAfter (w.withChild index (.node trimmed)) index removed := by
  rw [withoutConstantsTerminator] at h
  split at h
  · cases h
  · rename_i index hposition
    split_ifs at h
    split at h
    · rename_i constants hchild
      obtain ⟨⟨trimmed, removed⟩, htrimmed, rfl⟩ := Option.map_eq_some_iff.1 h
      exact ⟨index, constants, trimmed, removed, hposition, hchild, htrimmed, rfl⟩
    · cases h

theorem withoutConstantsTerminator_eq_none {w constants : Node} {index : Nat}
    (h : withoutConstantsTerminator w = none)
    (hposition : w.positionOf? (.java .enumConstants) = some index)
    (hchild : w.children[index]? = some (.node constants))
    (hfollows : ((w.children.drop (index + 1)).any fun e => e.node?.isSome) = false) :
    withoutTerminator constants = none := by
  rw [withoutConstantsTerminator] at h
  simpa [hposition, hchild, hfollows] using h

theorem settled_enumBody {w : Node} (hkind : w.kind = .java .enumBody)
    (hmembers : some (.java .empty) ∉ kinds w.children) (hw : AllTrimmed w.children) :
    let r := (withoutConstantsTerminator w).getD w
    r.kind = w.kind ∧ r.Everywhere Trimmed := by
  -- Whatever is made of the body, it has to keep its members, with constants that end in none.
  have hsettles : ∀ r : Node, r.kind = w.kind → kinds r.children = kinds w.children →
      AllTrimmed r.children →
      (∀ {index constants}, w.positionOf? (.java .enumConstants) = some index →
        r.children[index]? = some (.node constants) →
          ((w.children.drop (index + 1)).any fun e => e.node?.isSome) = false →
            withoutTerminator constants = none) →
      r.Everywhere Trimmed := by
    intro r hr hkinds hchildren hterminator
    refine everywhere_iff.2 ⟨⟨fun _ => ?_, fun _ => ?_, fun h => ?_, fun h => ?_⟩, hchildren⟩
    · rwa [isEmpty_kinds, hkinds]
    · intro index constants hposition hat hfollows
      rw [positionOf_kinds, hkinds, ← positionOf_kinds] at hposition
      rw [any_node_kinds, hkinds, ← any_node_kinds] at hfollows
      exact hterminator hposition hat hfollows
    · rw [hr, hkind] at h
      cases h
    · rw [hr, hkind] at h
      cases h
  cases hstep : withoutConstantsTerminator w with
  | none =>
      exact ⟨rfl, hsettles w rfl rfl hw fun hposition hat hfollows =>
        withoutConstantsTerminator_eq_none hstep hposition hat hfollows⟩
  | some r =>
      obtain ⟨index, constants, trimmed, removed, hposition, hchild, htrimmed, rfl⟩ :=
        withoutConstantsTerminator_eq_some hstep
      obtain ⟨hsame, hnone, hbelow⟩ := settled_withoutTerminator
        (hw constants (List.mem_of_getElem? hchild)) (kind_of_positionOf hposition hchild) htrimmed
      obtain ⟨hr, hkinds, hat, hall⟩ := carried_set removed hchild hsame hw hbelow
      refine ⟨hr, hsettles _ hr hkinds hall fun hposition' hat' _ => ?_⟩
      rw [hposition] at hposition'
      cases hposition'
      rw [Option.getD_some, hat] at hat'
      cases hat'
      exact hnone

theorem settled_tryResources {v : Node} (hkind : v.kind = .java .tryResources)
    (hv : AllTrimmed v.children) :
    let r := (withoutResourceTerminator v).getD v
    r.kind = v.kind ∧ r.Everywhere Trimmed := by
  have hsettles : ∀ r : Node, r.kind = v.kind → AllTrimmed r.children →
      (∀ {index resource}, lastResource? r.children = some index →
        r.children[index]? = some (.node resource) → resource.markers.get? .semicolon = none) →
      r.Everywhere Trimmed := by
    intro r hr hchildren hresources
    refine everywhere_iff.2 ⟨⟨fun h => ?_, fun h => ?_, fun h => ?_, fun _ => hresources⟩, hchildren⟩
    all_goals
      rw [hr, hkind] at h
      cases h
  cases hstep : withoutResourceTerminator v with
  | none =>
      refine ⟨rfl, hsettles v rfl hv fun {index resource} hlast hat => ?_⟩
      rw [Option.eq_none_iff_forall_ne_some]
      simpa [withoutResourceTerminator, hlast, hat, Element.node?] using hstep
  | some r =>
      simp only [withoutResourceTerminator, Option.bind_eq_bind, Option.bind_eq_some_iff,
        Option.some.injEq] at hstep
      obtain ⟨index, hlast, e, hchild, resource, he, terminator, -, rfl⟩ := hstep
      cases e with
      | token t => cases he
      | node c =>
          cases he
          obtain ⟨hr, hkinds, hat, hall⟩ := @carried_set v resource (unmarked resource .semicolon)
            index terminator.before hchild rfl hv
            (everywhere_congr (hv resource (List.mem_of_getElem? hchild)) rfl rfl)
          refine ⟨hr, hsettles _ hr hall fun hlast' hat' => ?_⟩
          rw [lastResource_kinds, Option.getD_some, hkinds, ← lastResource_kinds, hlast] at hlast'
          cases hlast'
          rw [Option.getD_some, hat] at hat'
          cases hat'
          exact Markers.get?_erase_self _ _

theorem settled_body {v : Node} (hbody : isBodyKind v.kind = true) (hne : v.kind ≠ .java .enumBody)
    (hv : AllTrimmed v.children) :
    let r := (withoutEmpty v).getD v
    r.kind = v.kind ∧ r.Everywhere Trimmed := by
  intro r
  obtain ⟨hr, hmembers, hchildren⟩ := settled_withoutEmpty hv
  refine ⟨hr, everywhere_iff.2 ⟨⟨fun _ => isEmpty_kinds.2 hmembers, fun h => ?_, fun h => ?_,
    fun h => ?_⟩, hchildren⟩⟩
  · exact absurd (hr.symm.trans h) hne
  all_goals
    rw [← hr, h] at hbody
    cases hbody

theorem settled_trim {v : Node} {kind : Java.Kind} (hkind : v.kind = .java kind)
    (hconstants : ConstantsShaped v) (hv : AllTrimmed v.children) :
    let r := (trim kind v).getD v
    r.kind = v.kind ∧ r.Everywhere Trimmed := by
  cases kind with
  | block => exact settled_body (by rw [hkind]; rfl) (by rw [hkind]; nofun) hv
  | classBody => exact settled_body (by rw [hkind]; rfl) (by rw [hkind]; nofun) hv
  | enumBody =>
      obtain ⟨hw, hmembers, hchildren⟩ := settled_withoutEmpty hv
      obtain ⟨hr, hsettled⟩ := settled_enumBody (hw.trans hkind) hmembers hchildren
      have htrim : (trim .enumBody v).getD v =
          (withoutConstantsTerminator ((withoutEmpty v).getD v)).getD ((withoutEmpty v).getD v) :=
        trimEnumBody_getD v
      rw [htrim]
      exact ⟨hr.trans hw, hsettled⟩
  | tryResources => exact settled_tryResources hkind hv
  | _ =>
      have hbody : isBodyKind v.kind = false := by
        rw [hkind]
        rfl
      have hresources : v.kind ≠ .java .tryResources := by
        rw [hkind]
        nofun
      exact ⟨rfl, everywhere_iff.2 ⟨trimmed_other hconstants hbody hresources, hv⟩⟩

/-! ### The walk -/

/-- The visitor makes of a node what its kind asks for. -/
theorem leave_java {v : Node} {kind : Java.Kind} (hkind : v.kind = .java kind) (cursor : Cursor) :
    visitor.leave v cursor () = (trim kind v, ()) := by
  simp only [visitor, Hooks.visitor, hkind]
  split_ifs with hvisited
  · rfl
  · rw [Bool.not_eq_true] at hvisited
    cases kind <;> first | rfl | cases hvisited

theorem leave_yaml {v : Node} {kind : Yaml.Kind} (hkind : v.kind = .yaml kind) (cursor : Cursor) :
    visitor.leave v cursor () = (none, ()) := by
  simp only [visitor, Hooks.visitor, hkind]

/-- What stands in place of a node holds nothing needless. -/
def Settles : VisitRelation Unit :=
  fun n _ n' _ _ => n.Everywhere ConstantsShaped → n'.kind = n.kind ∧ n'.Everywhere Trimmed

theorem allTrimmed_of_swept {es es' : List Element} {s s' : Unit} {changed : Bool}
    (h : Swept Settles es s es' changed s')
    (hes : ∀ c, Element.node c ∈ es → c.Everywhere ConstantsShaped) : AllTrimmed es' := by
  induction h with
  | nil => exact nofun
  | token _ ih =>
      intro c hc
      rcases List.mem_cons.1 hc with hc | hc
      · cases hc
      · exact ih (fun c hc => hes c (List.mem_cons_of_mem _ hc)) c hc
  | node hn _ ih =>
      intro c hc
      rcases List.mem_cons.1 hc with hc | hc
      · cases hc
        exact (hn (hes _ List.mem_cons_self)).2
      · exact ih (fun c hc => hes c (List.mem_cons_of_mem _ hc)) c hc

theorem constantsShaped_of_swept {n : Node} {es' : List Element} {s s' : Unit} {changed : Bool}
    (h : Swept Settles n.children s es' changed s') (hn : ConstantsShaped n) :
    ConstantsShaped { n with children := es' } := by
  intro hkind t ht
  have htokens := h.tokens
  obtain ⟨e, he, het⟩ : ∃ e ∈ n.children, e.token? = some t :=
    List.mem_map.1 (htokens ▸ List.mem_map.2 ⟨_, ht, rfl⟩)
  cases e with
  | node c => cases het
  | token u =>
      cases het
      rw [hn hkind t he] at htokens
      obtain ⟨e', rest, rfl, -, hrest⟩ := List.map_eq_cons_iff.1 htokens
      obtain rfl := List.map_eq_nil_iff.1 hrest
      rw [List.mem_singleton.1 ht]

theorem leaves_settles : visitor.Leaves Settles := by
  intro n cursor s s' es' changed hswept v left hn
  obtain ⟨hshaped, hbelow⟩ := everywhere_iff.1 hn
  have hchildren : AllTrimmed v.children := allTrimmed_of_swept hswept hbelow
  have hconstants : ConstantsShaped v := constantsShaped_of_swept hswept hshaped
  have hleft : left = visitor.leave v cursor () := rfl
  cases hkind : v.kind with
  | java kind =>
      obtain ⟨hr, hsettled⟩ := settled_trim hkind hconstants hchildren
      rw [hleft, leave_java hkind]
      exact ⟨hr.trans hkind, hsettled⟩
  | yaml kind =>
      have hbody : isBodyKind v.kind = false := by
        rw [hkind]
        rfl
      have hresources : v.kind ≠ .java .tryResources := by
        rw [hkind]
        nofun
      rw [hleft, leave_yaml hkind]
      exact ⟨hkind, everywhere_iff.2 ⟨trimmed_other hconstants hbody hresources, hchildren⟩⟩

theorem walk_trimmed {unit : Node} (haccepts : visitor.accepts unit = true)
    (h : unit.Everywhere ConstantsShaped) :
    visitor.walk ((visitor.walk unit ()).1.getD unit) () = (none, ()) := by
  obtain ⟨-, hsettled⟩ := Visitor.walk_sweeps (fun _ _ _ => rfl) leaves_settles haccepts () h
  refine Visitor.walk_idle (fun _ _ => rfl) fun m hm cursor => ?_
  cases hkind : m.kind with
  | java kind => rw [leave_java hkind, trim_of_trimmed (hsettled m hm) hkind]
  | yaml kind => exact leave_yaml hkind cursor

end Codemod.Recipes.Semicolons
