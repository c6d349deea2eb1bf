import Codemod.Java.Access
import Mathlib.Data.Option.Basic
import Mathlib.Tactic.SplitIfs

/-!
The name of a declaration or a call. Where it stands hangs only on the kinds of the children around
it, and what it is only on the token there.
-/

namespace Codemod.Tree

/-- A child as far as the slot of a method's name depends on it. -/
def Element.outline : Element → Kind ⊕ TokenKind
  | .node n => .inl n.kind
  | .token t => .inr t.kind

end Codemod.Tree

namespace Codemod.Java

open Codemod.Tree

theorem positionOf_outline {n n' : Node} (kind : Tree.Kind)
    (h : n'.children.map Element.outline = n.children.map Element.outline) :
    n'.positionOf? kind = n.positionOf? kind := by
  have hcompose : (fun e : Element => e.node?.any fun c => c.kind == kind) =
      (fun o => match o with | .inl k => k == kind | .inr _ => false) ∘ Element.outline := by
    funext e
    cases e <;> rfl
  rw [Node.positionOf?, Node.positionOf?, hcompose, ← List.findIdx?_map, ← List.findIdx?_map, h]

theorem outline_token {es es' : List Element} {index : Nat}
    (h : es'.map Element.outline = es.map Element.outline) :
    ((es'[index]?.bind Element.token?).map Token.kind) =
      (es[index]?.bind Element.token?).map Token.kind := by
  have hindex := congrArg (fun os => os[index]?) h
  simp only [List.getElem?_map] at hindex
  cases he : es[index]? with
  | none =>
      rw [he] at hindex
      cases he' : es'[index]? with
      | none => rfl
      | some e' =>
          rw [he'] at hindex
          cases hindex
  | some e =>
      rw [he] at hindex
      cases he' : es'[index]? with
      | none =>
          rw [he'] at hindex
          cases hindex
      | some e' =>
          rw [he'] at hindex
          cases e <;> cases e' <;> simp_all [Element.outline, Element.token?]

/-- The name of a declaration or a call stands directly in front of its list. -/
theorem methodNameSlot_eq_some {n : Node} {index : Nat} {t : Token} :
    methodNameSlot? n = some (index, t) ↔
      ∃ list, listBehindName? n.kind = some list ∧
        n.positionOf? (.java list) = some (index + 1) ∧ n.children[index]? = some (.token t) ∧
          (t.kind = .identifier ∨ t.kind = .keyword) := by
  simp only [methodNameSlot?, Option.bind_eq_bind, Option.bind_eq_some_iff]
  constructor
  · rintro ⟨list, hlist, position, hposition, h⟩
    cases position with
    | zero => cases h
    | succ position =>
        simp only [Option.bind_eq_some_iff] at h
        obtain ⟨e, he, t', ht, h⟩ := h
        split_ifs at h with hkind
        cases h
        cases e with
        | node c => cases ht
        | token t =>
            cases ht
            exact ⟨list, hlist, hposition, he, hkind⟩
  · rintro ⟨list, hlist, hposition, ht, hkind⟩
    refine ⟨list, hlist, index + 1, hposition, ?_⟩
    simp only [Option.bind_eq_some_iff]
    exact ⟨_, ht, t, rfl, if_pos hkind⟩

theorem isSome_methodNameSlot {n : Node} :
    (methodNameSlot? n).isSome = true ↔
      ∃ list index kind, listBehindName? n.kind = some list ∧
        n.positionOf? (.java list) = some (index + 1) ∧
          (n.children[index]?.bind Element.token?).map Token.kind = some kind ∧
            (kind = .identifier ∨ kind = .keyword) := by
  rw [Option.isSome_iff_exists]
  constructor
  · rintro ⟨⟨index, t⟩, h⟩
    obtain ⟨list, hlist, hposition, ht, hkind⟩ := methodNameSlot_eq_some.1 h
    exact ⟨list, index, t.kind, hlist, hposition, by rw [ht]; rfl, hkind⟩
  · rintro ⟨list, index, kind, hlist, hposition, hkind, hname⟩
    obtain ⟨t, ht, rfl⟩ := Option.map_eq_some_iff.1 hkind
    obtain ⟨e, he, ht⟩ := Option.bind_eq_some_iff.1 ht
    cases e with
    | node c => cases ht
    | token u =>
        obtain rfl : u = t := Option.some.inj ht
        exact ⟨(index, u), methodNameSlot_eq_some.2 ⟨list, hlist, hposition, he, hname⟩⟩

theorem token_of_methodName {n : Node} {name : String} (h : methodName? n = some name) :
    ∃ t, Element.token t ∈ n.children ∧ t.text = name ∧
      (t.kind = .identifier ∨ t.kind = .keyword) := by
  obtain ⟨⟨index, t⟩, hslot, rfl⟩ := Option.map_eq_some_iff.1 h
  obtain ⟨_, _, _, ht, hkind⟩ := methodNameSlot_eq_some.1 hslot
  exact ⟨t, List.mem_of_getElem? ht, rfl, hkind⟩

/-- Whether a node has a name to be renamed depends on its outline alone. -/
theorem slot_outline {n n' : Node} (hkind : n'.kind = n.kind)
    (h : n'.children.map Element.outline = n.children.map Element.outline) :
    (methodNameSlot? n').isSome = (methodNameSlot? n).isSome := by
  rw [Bool.eq_iff_iff, isSome_methodNameSlot, isSome_methodNameSlot, hkind]
  simp only [positionOf_outline _ h, outline_token h]

theorem receiver_outline {n n' : Node}
    (h : n'.children.map Element.outline = n.children.map Element.outline) :
    receiver? n' = none ↔ receiver? n = none := by
  rw [receiver?, receiver?]
  generalize n.children = es at h
  generalize n'.children = es' at h
  cases es <;> cases es'
  · exact Iff.rfl
  · cases h
  · cases h
  · rename_i e es e' es'
    rw [List.map_cons, List.map_cons, List.cons.injEq] at h
    cases e <;> cases e' <;> simp_all [Element.outline, Element.node?]

/-- Another name stands in place of one token. -/
theorem withMethodName_eq {n n' : Node} {name : String} (h : withMethodName? n name = some n') :
    ∃ front t behind, n.children = front ++ .token t :: behind ∧
      n' = { n with children := front ++ .token { t with text := name } :: behind } := by
  obtain ⟨⟨index, t⟩, hslot, rfl⟩ := Option.map_eq_some_iff.1 h
  obtain ⟨_, _, _, ht, _⟩ := methodNameSlot_eq_some.1 hslot
  obtain ⟨hindex, heq⟩ := List.getElem?_eq_some_iff.1 ht
  refine ⟨n.children.take index, t, n.children.drop (index + 1), ?_, ?_⟩
  · rw [← heq, ← List.drop_eq_getElem_cons hindex, List.take_append_drop]
  · show { n with children := n.children.set index _ } = _
    rw [List.set_eq_take_append_cons_drop, if_pos hindex]

/-- A child as far as the name of a declaration or a call around it depends on it. -/
def skeleton : Element → Tree.Kind ⊕ Token
  | .node n => .inl n.kind
  | .token t => .inr t

theorem outline_skeleton {es es' : List Element} (h : es'.map skeleton = es.map skeleton) :
    es'.map Element.outline = es.map Element.outline := by
  have hcompose : Element.outline =
      (fun o => match o with | .inl k => .inl k | .inr t => .inr t.kind) ∘ skeleton := by
    funext e
    cases e <;> rfl
  rw [hcompose, ← List.map_map, ← List.map_map, h]

theorem methodNameSlot_skeleton {n n' : Node} (hkind : n'.kind = n.kind)
    (h : n'.children.map skeleton = n.children.map skeleton) :
    methodNameSlot? n' = methodNameSlot? n := by
  have htoken : ∀ index : Nat, n'.children[index]?.bind Element.token? =
      n.children[index]?.bind Element.token? := by
    have hcompose : Element.token? =
        (fun o => match o with | .inl _ => none | .inr t => some t) ∘ skeleton := by
      funext e
      cases e <;> rfl
    intro index
    rw [hcompose, ← Option.bind_map, ← List.getElem?_map, h, List.getElem?_map, Option.bind_map]
  simp only [methodNameSlot?, Option.bind_eq_bind, hkind, positionOf_outline _ (outline_skeleton h),
    ← Option.bind_assoc, htoken]

theorem methodName_skeleton {n n' : Node} (hkind : n'.kind = n.kind)
    (h : n'.children.map skeleton = n.children.map skeleton) : methodName? n' = methodName? n := by
  rw [methodName?, methodName?, methodNameSlot_skeleton hkind h]

theorem methodName_withMethodName {n n' : Node} {name : String}
    (h : withMethodName? n name = some n') : methodName? n' = some name := by
  obtain ⟨⟨index, t⟩, hslot, hn'⟩ := Option.map_eq_some_iff.1 h
  obtain ⟨list, hlist, hposition, ht, hkind⟩ := methodNameSlot_eq_some.1 hslot
  obtain ⟨hindex, hat⟩ := List.getElem?_eq_some_iff.1 ht
  have hchildren : n'.children = n.children.set index (.token { t with text := name }) :=
    congrArg Node.children hn'.symm
  have houtline : n'.children.map Element.outline = n.children.map Element.outline := by
    have hsame : n.children.map Element.outline =
        (n.children.set index (.token t)).map Element.outline := by
      rw [← hat, List.set_getElem_self]
    rw [hsame, hchildren, List.map_set, List.map_set]
    rfl
  have hslot' : methodNameSlot? n' = some (index, { t with text := name }) := by
    refine methodNameSlot_eq_some.2 ⟨list, ?_, ?_, ?_, hkind⟩
    · rw [← hn']
      exact hlist
    · rw [positionOf_outline _ houtline, hposition]
    · rw [hchildren, List.getElem?_set_self hindex]
  rw [methodName?, hslot']
  rfl

end Codemod.Java
