import Codemod.Proofs.Yaml.Chains
import Codemod.Proofs.Yaml.Written
import Codemod.Recipes.Folding
import Mathlib.Data.List.Basic

/-!
Less indentation changes nothing but the spaces in front of tokens: the nodes of a tree, the keys
and scalars in it, and the comments stay.
-/

namespace Codemod.Recipes.Folding

open Codemod.Tree Codemod.Yaml

variable (shift : Nat)

/-! ### Trivia -/

theorem mem_dedentChars {c : Char} (hspace : c ≠ ' ') (pending : Nat) (cs : List Char) :
    c ∈ dedentChars shift pending cs ↔ c ∈ cs := by
  induction cs generalizing pending with
  | nil => rfl
  | cons d rest ih =>
      unfold dedentChars
      split_ifs with hbreak hblank
      · rw [List.mem_cons, List.mem_cons, ih]
      · subst hblank
        cases pending <;> simp [ih, hspace]
      · rw [List.mem_cons, List.mem_cons, ih]

theorem commentBehind_dedentChars (comment : Bool) (pending : Nat) (cs : List Char) :
    commentBehind comment (dedentChars shift pending cs) = commentBehind comment cs := by
  induction cs generalizing comment pending with
  | nil => rfl
  | cons c rest ih =>
      have hkept : ∀ pending, commentBehind comment (c :: dedentChars shift pending rest) =
          commentBehind comment (c :: rest) := by
        intro pending
        cases comment <;> simp only [commentBehind, ih]
      unfold dedentChars
      split_ifs with hbreak hblank
      · exact hkept _
      · subst hblank
        cases pending with
        | zero => exact hkept _
        | succ pending =>
            -- A space leaves the scanner where it is.
            rw [ih]
            cases comment <;> rfl
      · exact hkept _

theorem isTrivia_dedentText {lead : String} :
    IsTrivia (dedentText shift lead).toList ↔ IsTrivia lead.toList := by
  rw [IsTrivia, dedentText, String.toList_ofList, commentBehind_dedentChars, IsTrivia]

theorem sign_dedentText (lead : String) :
    (dedentText shift lead).toList.contains '#' = lead.toList.contains '#' := by
  have hmem := mem_dedentChars shift (c := '#') (by decide) 0 lead.toList
  rw [dedentText, String.toList_ofList, Bool.eq_iff_iff]
  simpa using hmem

/-! ### One node -/

theorem dedentList_eq (es : List Element) :
    dedentList shift es = es.map (dedentElement shift) := by
  induction es with
  | nil => rfl
  | cons e es ih => rw [dedentList, ih, List.map_cons]

theorem filterMap_dedent (es : List Element) :
    (es.map (dedentElement shift)).filterMap Element.node? =
      (es.filterMap Element.node?).map (dedent shift) := by
  rw [List.filterMap_map, List.map_filterMap]
  congr 1
  funext e
  cases e <;> rfl

theorem dedent_eq (n : Node) :
    dedent shift n =
      { n with lead := dedentText shift n.lead, children := n.children.map (dedentElement shift) } := by
  cases n
  rw [dedent, dedentList_eq]

section
variable (n : Node)

theorem kind_dedent : (dedent shift n).kind = n.kind := by
  rw [dedent_eq]

theorem lead_dedent : (dedent shift n).lead = dedentText shift n.lead := by
  rw [dedent_eq]

theorem children_dedent : (dedent shift n).children = n.children.map (dedentElement shift) := by
  rw [dedent_eq]

theorem childNodes_dedent : (dedent shift n).childNodes = n.childNodes.map (dedent shift) := by
  rw [Node.childNodes, children_dedent, filterMap_dedent, Node.childNodes]

theorem tokens_dedent :
    (dedent shift n).tokens = n.tokens.map fun t => { t with lead := dedentText shift t.lead } := by
  rw [Node.tokens, Node.tokens, children_dedent, List.filterMap_map, List.map_filterMap]
  congr 1
  funext e
  cases e <;> rfl

theorem keyText_dedent : keyText (dedent shift n) = keyText n := by
  simp only [keyText, entryKey?, kind_dedent, tokens_dedent, List.find?_map]
  split_ifs
  · rw [Option.map_map]
    rfl
  · rfl

theorem entryValue_dedent : entryValue? (dedent shift n) = (entryValue? n).map (dedent shift) := by
  simp only [entryValue?, kind_dedent, childNodes_dedent]
  split_ifs
  · rw [List.getLast?_map]
  · rfl

theorem scalarText_dedent : scalarText? (dedent shift n) = scalarText? n := by
  simp only [scalarText?, kind_dedent, tokens_dedent]
  split_ifs
  · cases n.tokens <;> rfl
  · rfl

end

/-! ### Whole trees -/

theorem preorder_dedent (n : Node) :
    (dedent shift n).preorder = n.preorder.map (dedent shift) := by
  induction n using Node.induction_on with
  | step n ih =>
      have hlist : Node.preorderList (n.children.map (dedentElement shift)) =
          (Node.preorderList n.children).map (dedent shift) := by
        rw [preorderList_eq, preorderList_eq, filterMap_dedent, List.flatMap_map, List.map_flatMap]
        exact List.flatMap_congr fun c hc => ih c (mem_childNodes.1 hc)
      obtain ⟨kind, lead, children, markers, type?⟩ := n
      rw [Node.preorder, List.map_cons, ← hlist, dedent, dedentList_eq, Node.preorder]

theorem leafChains_dedent (around : List Node) (n : Node) :
    leafChains (around.map (dedent shift)) (dedent shift n) =
      (leafChains around n).map fun leaf => (leaf.1.map (dedent shift), leaf.2) := by
  induction n using Node.induction_on generalizing around with
  | step n ih =>
      have hlist : ∀ around,
          leafChainsList (around.map (dedent shift)) (n.children.map (dedentElement shift)) =
            (leafChainsList around n.children).map
              fun leaf => (leaf.1.map (dedent shift), leaf.2) := by
        intro around
        rw [leafChainsList_eq, leafChainsList_eq, filterMap_dedent, List.flatMap_map,
          List.map_flatMap]
        exact List.flatMap_congr fun c hc => ih c (mem_childNodes.1 hc) around
      have hentry := hlist (around ++ [n])
      have hscalar := scalarText_dedent shift n
      obtain ⟨kind, lead, children, markers, type?⟩ := n
      rw [List.map_append, List.map_singleton] at hentry
      rw [dedent, dedentList_eq] at hentry hscalar ⊢
      rw [leafChains, leafChains]
      split_ifs
      · exact hentry
      · rw [hscalar]
        cases scalarText? ⟨kind, lead, children, markers, type?⟩ with
        | some raw => rfl
        | none => exact hlist around

theorem entryChains_dedent (around : List Node) (n : Node) :
    entryChains (around.map (dedent shift)) (dedent shift n) =
      (entryChains around n).map (List.map (dedent shift)) := by
  induction n using Node.induction_on generalizing around with
  | step n ih =>
      have hlist : ∀ around,
          entryChainsList (around.map (dedent shift)) (n.children.map (dedentElement shift)) =
            (entryChainsList around n.children).map (List.map (dedent shift)) := by
        intro around
        rw [entryChainsList_eq, entryChainsList_eq, filterMap_dedent, List.flatMap_map,
          List.map_flatMap]
        exact List.flatMap_congr fun c hc => ih c (mem_childNodes.1 hc) around
      have hentry := hlist (around ++ [n])
      obtain ⟨kind, lead, children, markers, type?⟩ := n
      rw [List.map_append, List.map_singleton] at hentry
      rw [dedent, dedentList_eq] at hentry ⊢
      rw [entryChains, entryChains]
      split_ifs
      · rw [hentry, List.map_cons, List.map_append, List.map_singleton, dedent, dedentList_eq]
      · exact hlist around

theorem written_dedent {n : Node} (h : Written n) : Written (dedent shift n) := by
  intro hkind
  rw [kind_dedent] at hkind
  obtain ⟨hlead, hkey, t, ht, hcolon⟩ := h hkind
  refine ⟨?_, fun {key} hfound => ?_, ?_⟩
  · rw [lead_dedent]
    exact (isTrivia_dedentText shift).2 hlead
  · have hsame := keyText_dedent shift n
    rw [keyText, hfound, keyText, Option.map_some] at hsame
    obtain ⟨key', hfound', htext⟩ := Option.map_eq_some_iff.1 hsame.symm
    rw [← htext]
    exact hkey hfound'
  · rw [tokens_dedent]
    exact ⟨_, List.mem_map_of_mem ht, hcolon⟩

theorem everywhere_written_dedent {n : Node} (h : n.Everywhere Written) :
    (dedent shift n).Everywhere Written := by
  intro m hm
  rw [preorder_dedent] at hm
  obtain ⟨m', hm', rfl⟩ := List.mem_map.1 hm
  exact written_dedent shift (h m' hm')

theorem shaped_dedent {n : Node} (h : Shaped n) : Shaped (dedent shift n) := by
  induction h with
  | scalar hkind hes =>
      exact .scalar ((kind_dedent shift _).trans hkind) (by rw [children_dedent, hes]; rfl)
  | @entry n value key colon hkind hes hkey hvalue _ ih =>
      have hes' : (dedent shift n).children =
          [.token { key with lead := dedentText shift key.lead },
            .token { colon with lead := dedentText shift colon.lead },
            .node (dedent shift value)] := by
        rw [children_dedent, hes]
        rfl
      refine .entry ((kind_dedent shift _).trans hkind) hes' hkey ?_ ih
      rwa [IsValue, kind_dedent]
  | mapping hkind hne honly _ ih =>
      refine .mapping ((kind_dedent shift _).trans hkind) ?_ ?_ ?_
      · rw [children_dedent]
        simpa using hne
      · intro e he
        rw [children_dedent] at he
        obtain ⟨e', he', rfl⟩ := List.mem_map.1 he
        obtain ⟨c, rfl, hc⟩ := honly e' he'
        exact ⟨_, rfl, (kind_dedent shift c).trans hc⟩
      · intro c hc
        rw [children_dedent] at hc
        obtain ⟨e, he, hec⟩ := List.mem_map.1 hc
        obtain ⟨c', rfl, _⟩ := honly e he
        cases hec
        exact ih c' he

theorem wellWritten_dedent {n : Node} (h : WellWritten n) : WellWritten (dedent shift n) :=
  ⟨shaped_dedent shift h.shaped, everywhere_written_dedent shift h.written⟩

/-- A lifted value is the inner one, perhaps with less indentation. -/
theorem liftedValue_cases (entry inner value : Node) :
    liftedValue entry inner value = value ∨ ∃ shift, liftedValue entry inner value = dedent shift value := by
  unfold liftedValue
  split_ifs
  · exact .inr ⟨_, rfl⟩
  · exact .inl rfl

end Codemod.Recipes.Folding
