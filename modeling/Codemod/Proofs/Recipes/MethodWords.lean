import Codemod.Proofs.Java.RenamedTokens
import Codemod.Proofs.Recipes.MethodRespelling
import Codemod.Proofs.Recipes.Semicolons

/-!
The words of a unit behind the recipe that renames methods. Each word is marked by the place where
it stands: the names of the declarations and the calls that are selected, and the last name in an
import. The trees below a unit keep their words in order, and only the marked ones have the new
name.
-/

namespace Codemod.Recipes.MethodName

open Codemod.Tree Codemod.Java

/-! ### Marked words -/

/-- The word behind the renaming: a marked one is the new name. -/
def respellWord (name : String) (w : Word × Bool) : Word :=
  if w.2 then (w.1.1, name) else w.1

/-- Two texts that differ in the marked words alone: they are identifiers in the one and the name in
the other. -/
inductive Rewords (name : String) : List (Word × Bool) → List Token → List Token → Prop where
  | nil : Rewords name [] [] []
  | keep (t : Token) {ws : List (Word × Bool)} {ts us : List Token} (h : Rewords name ws ts us) :
      Rewords name ((t.word, false) :: ws) (t :: ts) (t :: us)
  | rename (t : Token) {ws : List (Word × Bool)} {ts us : List Token} (hkind : t.kind = .identifier)
      (h : Rewords name ws ts us) :
      Rewords name ((t.word, true) :: ws) (t :: ts) ({ t with text := name } :: us)

namespace Rewords

variable {name : String} {ws vs : List (Word × Bool)} {ts us ts' us' : List Token}

theorem refl (ts : List Token) : Rewords name (ts.map fun t => (t.word, false)) ts ts := by
  induction ts with
  | nil => exact .nil
  | cons t ts ih => exact .keep t ih

theorem append (h : Rewords name ws ts us) (h' : Rewords name vs ts' us') :
    Rewords name (ws ++ vs) (ts ++ ts') (us ++ us') := by
  induction h with
  | nil => exact h'
  | keep t _ ih => exact .keep t ih
  | rename t hkind _ ih => exact .rename t hkind ih

theorem leadTokens (lead : String) (h : Rewords name ws ts us) :
    Rewords name ws (Tree.leadTokens lead ts) (Tree.leadTokens lead us) := by
  cases h with
  | nil => exact .nil
  | keep t h => exact .keep { t with lead := lead ++ t.lead } h
  | rename t hkind h => exact .rename { t with lead := lead ++ t.lead } hkind h

theorem before (h : Rewords name ws ts us) : ws.map Prod.fst = ts.map Token.word := by
  induction h with
  | nil => rfl
  | keep _ _ ih => rw [List.map_cons, List.map_cons, ih]
  | rename _ _ _ ih => rw [List.map_cons, List.map_cons, ih]

theorem behind (h : Rewords name ws ts us) : us.map Token.word = ws.map (respellWord name) := by
  induction h with
  | nil => rfl
  | keep _ _ ih => rw [List.map_cons, List.map_cons, ih]; rfl
  | rename _ _ _ ih => rw [List.map_cons, List.map_cons, ih]; rfl

theorem renamed (h : Rewords name ws ts us) : List.Forall₂ (Renamed name) ts us := by
  induction h with
  | nil => exact .nil
  | keep _ _ ih => exact .cons (.inl rfl) ih
  | rename _ hkind _ ih => exact .cons (.inr ⟨hkind, rfl⟩) ih

end Rewords

/-! ### Declarations and calls -/

/-- The place among the children where the name of a selected declaration or call stands. -/
def selectedSlot? (pattern : Pattern.MethodPattern) (n : Node) : Option Nat :=
  if selectedBy pattern n then (methodNameSlot? n).map Prod.fst else none

mutual

/-- The words of a node, each with whether it is the name of a selected declaration or call. -/
def markNames (pattern : Pattern.MethodPattern) : Node → List (Word × Bool)
  | ⟨kind, lead, children, markers, type?⟩ =>
      markNamesIn pattern kind.layout (selectedSlot? pattern ⟨kind, lead, children, markers, type?⟩) 0
        children

/-- The words of a child, a token that is a name or not. -/
def markNamesChild (pattern : Pattern.MethodPattern) (isName : Bool) : Element → List (Word × Bool)
  | .token t => [(t.word, isName)]
  | .node n => markNames pattern n

/-- The words of some children in a layout, of which the first stands at the index; a name stands at
the slot. -/
def markNamesIn (pattern : Pattern.MethodPattern) (layout : Layout) (slot : Option Nat) (index : Nat) :
    List Element → List (Word × Bool)
  | [] => []
  | e :: es =>
      markNamesChild pattern (slot == some index) e
        ++ (layout.delimiterTokens e es).map (fun t => (t.word, false))
        ++ markNamesIn pattern layout slot (index + 1) es

end

theorem markNames_eq (pattern : Pattern.MethodPattern) (n : Node) :
    markNames pattern n =
      markNamesIn pattern n.kind.layout (selectedSlot? pattern n) 0 n.children := by
  cases n
  rw [markNames]

/-- The name of a declaration or a call that carries a method is an identifier. -/
def NamesIdentifier (n : Node) : Prop :=
  ∀ m index t, n.type?.bind TypeInfo.method? = some m → methodNameSlot? n = some (index, t) →
    t.kind = .identifier

theorem any_node_of_outline {es fs : List Element}
    (h : fs.map Element.outline = es.map Element.outline) :
    (fs.any fun e => e.node?.isSome) = es.any fun e => e.node?.isSome := by
  have hcompose : (fun e : Element => e.node?.isSome) = Sum.isLeft ∘ Element.outline := by
    funext e
    cases e <;> rfl
  rw [hcompose, ← List.any_map, ← List.any_map, h]

section
variable {pattern : Pattern.MethodPattern} {layout : Layout} {name : String} {slot : Option Nat}
  {φ : Node → Node}

theorem Rewords.cons {index : Nat} {e e' : Element} {es fs : List Element}
    (he : Rewords name (markNamesChild pattern (slot == some index) e) e.lexemes e'.lexemes)
    (hmarkers : e'.node?.map Node.markers = e.node?.map Node.markers)
    (houtline : fs.map Element.outline = es.map Element.outline)
    (hes : Rewords name (markNamesIn pattern layout slot (index + 1) es) (Node.lexemesIn layout es)
      (Node.lexemesIn layout fs)) :
    Rewords name (markNamesIn pattern layout slot index (e :: es)) (Node.lexemesIn layout (e :: es))
      (Node.lexemesIn layout (e' :: fs)) := by
  rw [markNamesIn, Node.lexemesIn, Node.lexemesIn,
    delimiterTokens_congr layout hmarkers (any_node_of_outline houtline)]
  exact (he.append (.refl _)).append hes

theorem rewords_children {es fs : List Element} {index : Nat}
    (hkind : ∀ n, (φ n).kind = n.kind) (hmarkers : ∀ n, (φ n).markers = n.markers)
    (hes : ∀ c, Element.node c ∈ es → Rewords name (markNames pattern c) c.lexemes (φ c).lexemes)
    (hfs : (∀ i, slot ≠ some (index + i)) ∧ fs = es.map (Element.mapNode φ) ∨
      ∃ i t, slot = some (index + i) ∧ es[i]? = some (.token t) ∧ t.kind = .identifier ∧
        fs = (es.map (Element.mapNode φ)).set i (.token { t with text := name })) :
    fs.map Element.outline = es.map Element.outline ∧
      Rewords name (markNamesIn pattern layout slot index es) (Node.lexemesIn layout es)
        (Node.lexemesIn layout fs) := by
  induction es generalizing fs index with
  | nil =>
      rcases hfs with ⟨_, rfl⟩ | ⟨i, t, _, ht, _⟩
      · exact ⟨rfl, .nil⟩
      · cases ht
  | cons e es ih =>
      have hbehind := fun fs => @ih fs (index + 1) fun c hc => hes c (List.mem_cons_of_mem e hc)
      have hkeep : slot ≠ some index → Rewords name (markNamesChild pattern (slot == some index) e)
          e.lexemes (e.mapNode φ).lexemes := by
        intro hslot
        rw [beq_eq_false_iff_ne.2 hslot]
        cases e with
        | token t => exact .keep t .nil
        | node c => exact hes c List.mem_cons_self
      have hmarkers' : (e.mapNode φ).node?.map Node.markers = e.node?.map Node.markers := by
        cases e with
        | token t => rfl
        | node c => exact congrArg some (hmarkers c)
      have houtline : (e.mapNode φ).outline = e.outline := by
        cases e with
        | token t => rfl
        | node c => exact congrArg Sum.inl (hkind c)
      rcases hfs with ⟨hslot, rfl⟩ | ⟨i, t, hslot, ht, htkind, rfl⟩
      · obtain ⟨hsame, hrewords⟩ := hbehind _ (.inl ⟨fun i => by
          rw [Nat.add_assoc, Nat.add_comm 1]
          exact hslot (i + 1), rfl⟩)
        rw [List.map_cons, List.map_cons, List.map_cons, houtline, hsame]
        exact ⟨rfl, .cons (hkeep (hslot 0)) hmarkers' hsame hrewords⟩
      · cases i with
        | zero =>
            cases ht
            obtain ⟨hsame, hrewords⟩ := hbehind _ (.inl ⟨fun i => by
              rw [hslot, ne_eq, Option.some.injEq]
              omega, rfl⟩)
            refine ⟨congrArg (Sum.inr t.kind :: ·) hsame, Rewords.cons ?_ rfl hsame hrewords⟩
            rw [hslot, Nat.add_zero, beq_self_eq_true]
            exact .rename t htkind .nil
        | succ i =>
            obtain ⟨hsame, hrewords⟩ := hbehind _ (.inr ⟨i, t, by
              rw [hslot, Nat.add_assoc, Nat.add_comm 1], ht, htkind, rfl⟩)
            have hne : slot ≠ some index := by
              rw [hslot, ne_eq, Option.some.injEq]
              omega
            rw [List.map_cons, List.set_cons_succ, List.map_cons, List.map_cons, houtline, hsame]
            exact ⟨rfl, .cons (hkeep hne) hmarkers' hsame hrewords⟩

end

namespace Renaming

variable {r : Renaming}

theorem respellHere_carried {symbols : SymbolTable} {v : Node} {info : TypeInfo} {m : Signature}
    (hspelled : Spelled symbols v) (htype : v.type? = some info) (hm : info.method? = some m) :
    r.respellHere v = if r.applies m then (r.rename? v).getD v else v := by
  cases info with
  | type name => cases hm
  | method m' =>
      cases hm
      rw [respellHere, (hspelled.declaration m htype).1]
      simp only [declaration, htype]
      split_ifs <;> rfl
  | invocation m' via =>
      cases hm
      rw [respellHere, (hspelled.call m via htype).1]
      simp only [call_fst, htype]
      split_ifs <;> rfl

theorem methodName_carried {symbols : SymbolTable} {v : Node} {info : TypeInfo} {m : Signature}
    (hspelled : Spelled symbols v) (htype : v.type? = some info) (hm : info.method? = some m) :
    methodName? v = some m.name := by
  cases info with
  | type name => cases hm
  | method m' =>
      cases hm
      exact (hspelled.declaration m htype).2
  | invocation m' via =>
      cases hm
      exact (hspelled.call m via htype).2.1

theorem children_respellHere {symbols : SymbolTable} {v : Node} (hspelled : Spelled symbols v) :
    selectedSlot? r.pattern v = none ∧ (r.respellHere v).children = v.children ∨
      ∃ index t, selectedSlot? r.pattern v = some index ∧ methodNameSlot? v = some (index, t) ∧
        (r.respellHere v).children =
          v.children.set index (.token { t with text := r.newName }) := by
  cases hm : v.type?.bind TypeInfo.method? with
  | none =>
      have hstays : r.respellHere v = v := by
        refine (respellHere_cases v).resolve_right ?_
        rintro ⟨info, m, w, htype, hmethod, _⟩
        rw [htype] at hm
        cases hm.symm.trans hmethod
      exact .inl ⟨by simp [selectedSlot?, selectedBy, hm], by rw [hstays]⟩
  | some m =>
      obtain ⟨info, htype, hmethod⟩ := Option.bind_eq_some_iff.1 hm
      obtain ⟨⟨index, t⟩, hslot, htext⟩ :=
        Option.map_eq_some_iff.1 (methodName_carried hspelled htype hmethod)
      have hselected : selectedBy r.pattern v = r.pattern.selects m := by simp [selectedBy, hm]
      rw [respellHere_carried hspelled htype hmethod, selectedSlot?, hselected, hslot]
      cases hselects : r.pattern.selects m with
      | false => exact .inl ⟨rfl, by simp [applies, hselects]⟩
      | true =>
          refine .inr ⟨index, t, rfl, rfl, ?_⟩
          by_cases hname : m.name = r.newName
          · -- The name is the new one already.
            obtain ⟨_, _, _, ht, _⟩ := methodNameSlot_eq_some.1 hslot
            obtain ⟨hindex, hat⟩ := List.getElem?_eq_some_iff.1 ht
            have hsame : ({ t with text := r.newName } : Token) = t := by
              rw [← hname, ← htext]
            rw [if_neg (by simp [applies, hname]), hsame, ← hat, List.set_getElem_self]
          · rw [if_pos (by simp [applies, hname, hselects]), rename?, withMethodName?, hslot]
            rfl

theorem markers_respell (n : Node) : (r.respell n).markers = n.markers ∧
    (r.respell n).lead = n.lead := by
  rw [respell_eq]
  rcases respellHere_cases (r := r)
    { n with children := n.children.map (Element.mapNode r.respell) } with
    hsame | ⟨info, m, w, _, _, _, hw, hrespelled⟩
  · rw [hsame]
    exact ⟨rfl, rfl⟩
  · obtain ⟨w₁, hw₁, rfl⟩ := Option.map_eq_some_iff.1 hw
    obtain ⟨front, t, behind, _, rfl⟩ := withMethodName_eq hw₁
    rw [hrespelled]
    exact ⟨rfl, rfl⟩

theorem rewords_respell {symbols : SymbolTable} {n : Node}
    (hspelled : n.Everywhere (Spelled symbols)) (hnames : n.Everywhere NamesIdentifier) :
    Rewords r.newName (markNames r.pattern n) n.lexemes (r.respell n).lexemes := by
  induction n using Node.induction_on with
  | step n ih =>
      obtain ⟨hn, hbelow⟩ := everywhere_iff.1 hspelled
      obtain ⟨hname, hnamesBelow⟩ := everywhere_iff.1 hnames
      obtain ⟨v, hv⟩ : ∃ v, v = { n with children := n.children.map (Element.mapNode r.respell) } :=
        ⟨_, rfl⟩
      have hkind : v.kind = n.kind := by rw [hv]
      have htype : v.type? = n.type? := by rw [hv]
      have hskeleton : v.children.map skeleton = n.children.map skeleton := by
        rw [hv]
        exact skeleton_mapNode kind_respell n.children
      have hslot : methodNameSlot? v = methodNameSlot? n := methodNameSlot_skeleton hkind hskeleton
      have hselected : selectedSlot? r.pattern v = selectedSlot? r.pattern n := by
        rw [selectedSlot?, selectedSlot?, hslot, selectedBy, selectedBy, htype]
      have hrespelled : (r.respell n).children = (r.respellHere v).children := by
        rw [hv, ← respell_eq]
      have hchildren := fun h => (@rewords_children r.pattern n.kind.layout r.newName
        (selectedSlot? r.pattern n) r.respell n.children (r.respell n).children 0 kind_respell
        (fun c => (markers_respell c).1)
        (fun c hc => ih c hc (hbelow c hc) (hnamesBelow c hc)) h).2
      rw [markNames_eq, lexemes_eq, lexemes_eq, kind_respell, (markers_respell n).2]
      refine (hchildren ?_).leadTokens n.lead
      rcases children_respellHere (r := r) (spelled_skeleton hkind htype hskeleton hn) with
        ⟨hnone, hsame⟩ | ⟨index, t, hsome, ht, hset⟩
      · rw [hselected] at hnone
        rw [hrespelled, hsame, hv]
        exact .inl ⟨fun i => by simp [hnone], rfl⟩
      · rw [hselected] at hsome
        rw [hslot] at ht
        rw [hrespelled, hset, hv]
        refine .inr ⟨index, t, by rw [hsome, Nat.zero_add], ?_, ?_, rfl⟩
        · obtain ⟨_, _, _, hat, _⟩ := methodNameSlot_eq_some.1 ht
          exact hat
        · rw [selectedSlot?] at hsome
          split_ifs at hsome with hselects
          obtain ⟨m, hm, _⟩ := Option.any_eq_true _ _ |>.1 hselects
          exact hname m index t hm ht

end Renaming

/-! ### Names -/

section
variable {source : String} {unit m : Node} {t : Token} {index : Nat}

theorem wordKind_of_child (h : parseUnit source = .ok unit) (hm : m ∈ unit.preorder)
    (ht : Element.token t ∈ m.children) (hkind : t.kind = .identifier ∨ t.kind = .keyword) :
    t.kind = wordKind t.text := by
  obtain ⟨_, _, tokens, htokens, hlexemes⟩ := unit_of_parseUnit h
  obtain ⟨t', ht', hsame, htext⟩ := exists_lexeme (mem_leaves.2 ⟨m, hm, ht⟩)
  rw [hlexemes] at ht'
  rw [← hsame, ← htext]
  exact (Scan.scans_tokensWithin htokens).wordKind ht' (hsame ▸ hkind)

theorem identifier_of_declaration (h : parseUnit source = .ok unit) (hm : m ∈ unit.preorder)
    (hkind : m.kind = .java .methodDeclaration) (hslot : methodNameSlot? m = some (index, t)) :
    t.kind = .identifier := by
  obtain ⟨_, _, _, hat, hword⟩ := methodNameSlot_eq_some.1 hslot
  have hchild := List.mem_of_getElem? hat
  have hnaming : Naming m.children := formed_of_parseUnit h m hm _ hkind
  rcases hnaming t hchild with hname | hsemicolon
  · exact hname
  · rw [wordKind_of_child h hm hchild hword, hsemicolon]
    rfl

/-- A declaration in attributed files is named by an identifier, and so is a call that resolved: it
has the name of a declaration. -/
theorem names_attributeUnit {units : List Node} (hunits : ∀ u ∈ units, ∃ s, parseUnit s = .ok u)
    (h : parseUnit source = .ok unit) :
    (attributeUnit (.ofUnits units) unit).Everywhere NamesIdentifier := by
  intro n hn m index t hm hslot
  have huntyped := mem_preorder_untyped hn
  rw [untyped_attributeUnit h] at huntyped
  obtain ⟨info, htype, hmethod⟩ := Option.bind_eq_some_iff.1 hm
  have hspelled := spelled_attributeUnit h (.ofUnits units) n hn
  rw [← methodNameSlot_untyped] at hslot
  cases info with
  | type name => cases hmethod
  | method m' =>
      cases hmethod
      have hkind := (hspelled.declaration m htype).1
      exact identifier_of_declaration h huntyped ((kind_untyped n).trans hkind) hslot
  | invocation m' via =>
      cases hmethod
      obtain ⟨_, hname, c, hc, hmem⟩ := hspelled.call m via htype
      obtain ⟨home, hhome, d, hd, member, hmember, hkind, hdeclared⟩ := declares_of_mem hc hmem
      obtain ⟨text, hparse⟩ := hunits home hhome
      obtain ⟨⟨index', t'⟩, hslot', htext'⟩ := Option.map_eq_some_iff.1 (name_of_method hdeclared)
      have hpreorder : member ∈ home.preorder :=
        mem_preorder_trans (mem_preorder_of_member hmember) (mem_preorder_of_unitClasses hd)
      obtain ⟨_, _, _, hat, hword⟩ := methodNameSlot_eq_some.1 hslot
      obtain ⟨_, _, _, hat', hword'⟩ := methodNameSlot_eq_some.1 hslot'
      have htext : t.text = m.name := by
        rw [methodName?, ← methodNameSlot_untyped, hslot] at hname
        exact Option.some.inj hname
      rw [wordKind_of_child h huntyped (List.mem_of_getElem? hat) hword, htext, ← htext',
        ← wordKind_of_child hparse hpreorder (List.mem_of_getElem? hat') hword']
      exact identifier_of_declaration hparse hpreorder hkind hslot'

end

end Codemod.Recipes.MethodName
