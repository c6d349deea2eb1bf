import Codemod.Proofs.Recipes.Dedenting
import Codemod.Proofs.Text.Parts
import Codemod.Proofs.Tree.Sweep
import Mathlib.Data.List.Forall2

/-!
Folding entries into dotted keys. What the walk makes of a document is a relation with one case for
each kind of node: an entry that is to be folded has its only inner entry joined to it, and all else
stays around what is made of the nodes below. The main statement says that every scalar stays under
its path and that no entry is left to fold.
-/

namespace Codemod.Recipes.Folding

open Codemod.Tree Codemod.Yaml

/-- The entry has a key that is not quoted. -/
def hasPlainKey (entry : Node) : Bool :=
  (keyText entry).any fun key => !isQuoted key

/-- The entry is one to fold: its value is a mapping of one entry, neither of the two keys is
quoted, and no comment stands before the inner one. -/
def folds (entry : Node) : Bool :=
  (entryValue? entry).any fun value =>
    value.kind == .yaml .mapping && (onlyChild? value).any fun inner =>
      hasPlainKey entry && hasPlainKey inner && !inner.lead.toList.contains '#'

/-! ### Dotted keys -/

section
variable {key innerKey : String} (hkey : KeyText key) (hplain : isQuoted key = false)
include hkey hplain

theorem keyText_join : KeyText (key ++ "." ++ innerKey) ∧ isQuoted (key ++ "." ++ innerKey) = false := by
  obtain ⟨c, rest, hraw, hdouble, hsingle⟩ := hkey hplain
  have hjoined : (key ++ "." ++ innerKey).toList = c :: (rest ++ '.' :: innerKey.toList) := by
    simp [hraw]
  exact ⟨fun _ => ⟨c, _, hjoined, hdouble, hsingle⟩, isQuoted_of_plain hjoined hdouble hsingle⟩

/-- The segments of two keys that are joined are those of both. -/
theorem keySegments_join (hinner : isQuoted innerKey = false) :
    keySegments (key ++ "." ++ innerKey) = keySegments key ++ keySegments innerKey := by
  have hjoined := (@keyText_join key innerKey hkey hplain).2
  have hcut : (key ++ "." ++ innerKey).toList = key.toList ++ '.' :: innerKey.toList := by simp
  rw [keySegments, keySegments, keySegments, hplain, hinner, hjoined, hcut,
    Text.splitOn_separator]
  simp

end

/-! ### One entry -/

/-- The second entry is the first with its only inner entry joined to it. -/
inductive Joins : Node → Node → Prop where
  | intro {e mapping inner value : Node} {key colon innerKey innerColon sign : Token}
      (hkind : e.kind = .yaml .entry)
      (hes : e.children = [.token key, .token colon, .node mapping]) (hkey : key.kind = .text)
      (hmapping : mapping.kind = .yaml .mapping) (hinner : mapping.children = [.node inner])
      (hkind' : inner.kind = .yaml .entry)
      (hes' : inner.children = [.token innerKey, .token innerColon, .node value])
      (hkey' : innerKey.kind = .text) (hvalue : IsValue value) (htext : KeyText key.text)
      (hplain : isQuoted key.text = false) (hplain' : isQuoted innerKey.text = false)
      (hsign : sign.text = ":") :
      Joins e
        { e with
          children :=
            [ .token ⟨.text, "", key.text ++ "." ++ innerKey.text⟩, .token sign,
              .node (liftedValue e inner value) ] }

theorem onlyChild_eq_some {mapping inner : Node} (honly : EntriesOnly mapping.children) :
    onlyChild? mapping = some inner ↔ mapping.children = [.node inner] := by
  have hchildren : mapping.children = mapping.childNodes.map .node := by
    rw [Node.childNodes]
    generalize mapping.children = es at honly
    induction es with
    | nil => rfl
    | cons e es ih =>
        obtain ⟨⟨c, rfl, _⟩, hrest⟩ := List.forall_mem_cons.1 honly
        rw [List.filterMap_cons, Element.node?, List.map_cons, ← ih hrest]
  unfold onlyChild?
  rw [hchildren]
  rcases mapping.childNodes with _ | ⟨c, _ | ⟨c', cs⟩⟩ <;> simp

section
variable {e value : Node} {key colon : Token} (hkind : e.kind = .yaml .entry)
  (hes : e.children = [.token key, .token colon, .node value]) (hkey : key.kind = .text)
include hkind hes hkey

theorem keyText_entry : keyText e = some key.text := by
  rw [keyText, entryKey_entry hkind hes hkey]
  rfl

theorem hasPlainKey_entry : hasPlainKey e = !isQuoted key.text := by
  rw [hasPlainKey, keyText_entry hkind hes hkey]
  rfl

theorem folds_entry : folds e = (value.kind == .yaml .mapping && (onlyChild? value).any fun inner =>
    !isQuoted key.text && hasPlainKey inner && !inner.lead.toList.contains '#') := by
  rw [folds, entryValue_entry hkind hes, hasPlainKey_entry hkind hes hkey]
  rfl

end

section
variable {e e' : Node} (h : Joins e e')
include h

theorem Joins.kind_eq : e'.kind = e.kind := by
  cases h
  rfl

theorem Joins.lead_eq : e'.lead = e.lead := by
  cases h
  rfl

theorem Joins.plainKey : hasPlainKey e = true ∧ hasPlainKey e' = true := by
  obtain ⟨hkind, hes, hkey, _, _, _, _, _, _, htext, hplain, _, _⟩ := h
  constructor
  · rw [hasPlainKey_entry hkind hes hkey, hplain]
    rfl
  · refine (@hasPlainKey_entry { e with children := _ } _ ⟨.text, "", _⟩ _ hkind rfl rfl).trans ?_
    rw [(keyText_join htext hplain).2]
    rfl

end

/-- An entry that is to be folded is joined with its inner one, and another one stays. -/
theorem fold_of_written {e : Node} (hkind : e.kind = .yaml .entry) (h : Shaped e)
    (hwritten : e.Everywhere Written) :
    (folds e = true → ∃ e', fold? e = some e' ∧ Joins e e') ∧
      (folds e = false → fold? e = none) := by
  obtain ⟨value, key, colon, hes, hkey, hvalue, hshaped⟩ := h.entry_children hkind
  have hfoundKey := entryKey_entry hkind hes hkey
  have hfoundValue := entryValue_entry hkind hes
  have htext : KeyText key.text := (hwritten e (mem_preorder_self e) hkind).key hfoundKey
  rw [folds_entry hkind hes hkey]
  by_cases hmapping : value.kind = .yaml .mapping
  · have honly := (mapping_of_shaped hshaped (mem_preorder_self _) hmapping).2
    cases hfound : onlyChild? value with
    | none => simp [fold?, hfoundKey, hfoundValue, hmapping, hfound]
    | some inner =>
        have hinner := (onlyChild_eq_some honly).1 hfound
        have hmem : Element.node inner ∈ value.children := by simp [hinner]
        obtain ⟨_, ⟨⟩, hkind'⟩ := honly _ hmem
        obtain ⟨innerValue, innerKey, innerColon, hes', hkey', hvalue', _⟩ :=
          (hshaped.child hmem).entry_children hkind'
        obtain ⟨hlead, _, t, ht, hsign⟩ := hwritten inner (mem_preorder.2 (.inr ⟨value, by simp [hes],
          mem_preorder.2 (.inr ⟨inner, hmem, mem_preorder_self _⟩)⟩)) hkind'
        obtain ⟨sign, hsign⟩ : ∃ sign, inner.tokens.find? (fun t => t.text == ":") = some sign :=
          Option.isSome_iff_exists.1 (List.find?_isSome.2 ⟨t, ht, by simpa using hsign⟩)
        have hcomment : Text.holdsComment inner.lead = inner.lead.toList.contains '#' := by
          rw [Bool.eq_iff_iff, holdsComment_iff hlead]
          simp
        have hfoundKey' := entryKey_entry hkind' hes' hkey'
        have hfoundValue' := entryValue_entry hkind' hes'
        have hfold : fold? e =
            if isQuoted key.text || isQuoted innerKey.text || inner.lead.toList.contains '#' then none
            else
              some { e with
                children :=
                  [ .token ⟨.text, "", key.text ++ "." ++ innerKey.text⟩, .token sign,
                    .node (liftedValue e inner innerValue) ] } := by
          have hfilter : Option.filter (fun v => v.kind == .yaml .mapping) (some value) =
              some value := by
            simp [Option.filter, hmapping]
          simp [fold?, hfoundKey, hfoundValue, hfilter, hfound, hfoundKey', hcomment, hsign,
            hfoundValue']
        rw [Option.any_some, hasPlainKey_entry hkind' hes' hkey', hmapping, hfold]
        constructor
        · intro hfolds
          simp only [beq_self_eq_true, Bool.true_and, Bool.and_eq_true,
            Bool.not_eq_true'] at hfolds
          obtain ⟨⟨hplain, hplain'⟩, hfree⟩ := hfolds
          exact ⟨_, by rw [hplain, hplain', hfree]; rfl,
            .intro hkind hes hkey hmapping hinner hkind' hes' hkey' hvalue' htext hplain hplain'
              (by simpa using List.find?_some hsign)⟩
        · intro hstays
          refine if_pos ?_
          revert hstays
          cases isQuoted key.text <;> cases isQuoted innerKey.text <;>
            cases inner.lead.toList.contains '#' <;> simp
  · simp [fold?, hfoundKey, hfoundValue, hmapping, Option.filter]

/-! ### What the walk makes of a node -/

/-- What is made of a child of a node when the children below it were visited. -/
inductive Coalesced : Element → Element → Prop where
  | token (t : Token) : Coalesced (.token t) (.token t)
  | group {n : Node} {pairs : List (Element × Element)} (hkind : n.kind ≠ .yaml .entry)
      (hes : n.children = pairs.map Prod.fst) (h : ∀ p ∈ pairs, Coalesced p.1 p.2) :
      Coalesced (.node n) (.node { n with children := pairs.map Prod.snd })
  | kept {n value value' : Node} {key colon : Token} (hkind : n.kind = .yaml .entry)
      (hes : n.children = [.token key, .token colon, .node value]) (hkey : key.kind = .text)
      (hfolds : folds n = false) (h : Coalesced (.node value) (.node value')) :
      Coalesced (.node n) (.node { n with children := [.token key, .token colon, .node value'] })
  | joined {n value value' e : Node} {key colon : Token} (hkind : n.kind = .yaml .entry)
      (hes : n.children = [.token key, .token colon, .node value]) (hkey : key.kind = .text)
      (hfolds : folds n = true) (h : Coalesced (.node value) (.node value'))
      (hjoins : Joins { n with children := [.token key, .token colon, .node value'] } e) :
      Coalesced (.node n) (.node e)

/-! ### What stays of a node -/

theorem Coalesced.node {n : Node} {e' : Element} (h : Coalesced (.node n) e') :
    ∃ n', e' = .node n' ∧ n'.kind = n.kind ∧ n'.lead = n.lead ∧ hasPlainKey n' = hasPlainKey n := by
  cases h with
  | group hkind _ _ =>
      refine ⟨_, rfl, rfl, rfl, ?_⟩
      simp [hasPlainKey, keyText, entryKey?, hkind]
  | kept hkind hes hkey _ _ =>
      refine ⟨_, rfl, rfl, rfl, ?_⟩
      rw [hasPlainKey_entry hkind hes hkey]
      exact hasPlainKey_entry hkind rfl hkey
  | joined hkind hes hkey _ _ hjoins =>
      refine ⟨_, rfl, hjoins.kind_eq, hjoins.lead_eq, ?_⟩
      rw [hjoins.plainKey.2, ← hjoins.plainKey.1]
      exact (@hasPlainKey_entry { n with children := _ } _ _ _ hkind rfl hkey).trans
        (hasPlainKey_entry hkind hes hkey).symm

/-- The child nodes of a visited node, each with what is made of it. -/
theorem coalesced_childNodes {pairs : List (Element × Element)}
    (h : ∀ p ∈ pairs, Coalesced p.1 p.2) :
    ∃ nodes : List (Node × Node), (pairs.map Prod.fst).filterMap Element.node? = nodes.map Prod.fst ∧
      (pairs.map Prod.snd).filterMap Element.node? = nodes.map Prod.snd ∧
        ∀ q ∈ nodes, ∃ p ∈ pairs, p = (.node q.1, .node q.2) := by
  induction pairs with
  | nil => exact ⟨[], rfl, rfl, nofun⟩
  | cons p pairs ih =>
      obtain ⟨e, e'⟩ := p
      obtain ⟨hfirst, hrest⟩ := List.forall_mem_cons.1 h
      obtain ⟨nodes, hfst, hsnd, hmem⟩ := ih hrest
      cases e with
      | token t =>
          cases hfirst
          refine ⟨nodes, hfst, hsnd, fun q hq => ?_⟩
          obtain ⟨p, hp, rfl⟩ := hmem q hq
          exact ⟨_, List.mem_cons_of_mem _ hp, rfl⟩
      | node n =>
          obtain ⟨n', rfl, _⟩ := hfirst.node
          refine ⟨(n, n') :: nodes, congrArg (n :: ·) hfst, congrArg (n' :: ·) hsnd,
            List.forall_mem_cons.2 ⟨⟨_, List.mem_cons_self, rfl⟩, fun q hq => ?_⟩⟩
          obtain ⟨p, hp, rfl⟩ := hmem q hq
          exact ⟨_, List.mem_cons_of_mem _ hp, rfl⟩

theorem Coalesced.token_eq {t : Token} {e' : Element} (h : Coalesced (.token t) e') :
    e' = .token t := by
  cases h
  rfl

theorem coalesced_tokens {pairs : List (Element × Element)} (h : ∀ p ∈ pairs, Coalesced p.1 p.2)
    (htokens : ∀ e ∈ pairs.map Prod.fst, ∃ t, e = .token t) :
    pairs.map Prod.snd = pairs.map Prod.fst := by
  refine List.map_congr_left fun p hp => ?_
  obtain ⟨t, ht⟩ := htokens p.1 (List.mem_map_of_mem hp)
  have hp := h p hp
  rw [ht] at hp
  rw [ht, hp.token_eq]

theorem Coalesced.children {n n' : Node} (h : Coalesced (.node n) (.node n'))
    (hkind : n.kind ≠ .yaml .entry) :
    ∃ es', n' = { n with children := es' } ∧ List.Forall₂ Coalesced n.children es' := by
  cases h with
  | @group _ pairs _ hes h =>
      refine ⟨_, rfl, ?_⟩
      rw [hes, List.forall₂_map_left_iff, List.forall₂_map_right_iff, List.forall₂_same]
      exact h
  | kept hentry => exact absurd hentry hkind
  | joined hentry => exact absurd hentry hkind

theorem coalesced_behind {front es es' : List Element} (hfront : ∀ e ∈ front, ∃ t, e = .token t)
    (h : List.Forall₂ Coalesced (front ++ es) es') :
    ∃ rest, es' = front ++ rest ∧ List.Forall₂ Coalesced es rest := by
  induction front generalizing es' with
  | nil => exact ⟨es', rfl, h⟩
  | cons e front ih =>
      obtain ⟨⟨t, rfl⟩, hrest⟩ := List.forall_mem_cons.1 hfront
      rw [List.cons_append] at h
      cases h with
      | cons hfirst h =>
      obtain ⟨rest, rfl, hbehind⟩ := ih hrest h
      exact ⟨rest, by rw [hfirst.token_eq, List.cons_append], hbehind⟩

theorem Coalesced.documentMapping {d d' m : Node} {marker : List Element} {last : Token}
    (h : Coalesced (.node d) (.node d')) (hkind : d.kind = .yaml .document)
    (hes : d.children = marker ++ [.node m] ++ [.token last])
    (hmarker : ∀ e ∈ marker, ∃ t, e = .token t) :
    ∃ m', d' = { d with children := marker ++ [.node m'] ++ [.token last] } ∧
      Coalesced (.node m) (.node m') := by
  obtain ⟨es', rfl, hchildren⟩ := h.children (by simp [hkind])
  rw [hes, List.append_assoc] at hchildren
  obtain ⟨rest, rfl, hrest⟩ := coalesced_behind hmarker hchildren
  cases hrest with
  | cons hm hrest =>
  cases hrest with
  | cons ht hrest =>
  cases hrest
  obtain ⟨m', rfl, _⟩ := hm.node
  exact ⟨m', by rw [ht.token_eq, List.append_assoc]; rfl, hm⟩

theorem Coalesced.token_same {e e' : Element} (h : Coalesced e e') : e'.token? = e.token? := by
  cases e with
  | token t => rw [h.token_eq]
  | node n =>
      obtain ⟨n', rfl, _⟩ := h.node
      rfl

/-- A visited mapping has as many entries as before, so its only entry is what is made of the only
one. -/
theorem onlyChild_coalesced {value value' : Node} (hkind : value.kind ≠ .yaml .entry)
    (h : Coalesced (.node value) (.node value')) :
    onlyChild? value = none ∧ onlyChild? value' = none ∨
      ∃ inner inner', onlyChild? value = some inner ∧ onlyChild? value' = some inner' ∧
        Coalesced (.node inner) (.node inner') := by
  cases h with
  | @group _ pairs _ hes h =>
      obtain ⟨nodes, hfst, hsnd, hmem⟩ := coalesced_childNodes h
      rw [onlyChild?, onlyChild?, Node.childNodes, Node.childNodes, hes, hfst, hsnd]
      rcases nodes with _ | ⟨q, _ | ⟨q', nodes⟩⟩
      · exact .inl ⟨rfl, rfl⟩
      · obtain ⟨p, hp, rfl⟩ := hmem q List.mem_cons_self
        exact .inr ⟨_, _, rfl, rfl, h _ hp⟩
      · exact .inl ⟨rfl, rfl⟩
  | kept hentry => exact absurd hentry hkind
  | joined hentry => exact absurd hentry hkind

theorem folds_visited {n value value' : Node} {key colon : Token} (hkind : n.kind = .yaml .entry)
    (hes : n.children = [.token key, .token colon, .node value]) (hkey : key.kind = .text)
    (h : Coalesced (.node value) (.node value')) :
    folds { n with children := [.token key, .token colon, .node value'] } = folds n := by
  obtain ⟨_, ⟨⟩, hsame, _⟩ := h.node
  rw [folds_entry hkind hes hkey,
    @folds_entry { n with children := _ } value' key colon hkind rfl hkey, hsame]
  by_cases hmapping : value.kind = .yaml .mapping
  · rcases onlyChild_coalesced (by simp [hmapping]) h with
      ⟨hnone, hnone'⟩ | ⟨inner, inner', hfound, hfound', hinner⟩
    · rw [hnone, hnone']
    · obtain ⟨_, ⟨⟩, _, hlead, hplain⟩ := hinner.node
      rw [hfound, hfound', Option.any_some, Option.any_some, hlead, hplain]
  · rw [beq_eq_false_iff_ne.2 hmapping]
    rfl

/-! ### Shape and texts -/

theorem wellWritten_liftedValue {value : Node} (entry inner : Node) (h : WellWritten value) :
    WellWritten (liftedValue entry inner value) := by
  rcases liftedValue_cases entry inner value with hsame | ⟨shift, hdedent⟩
  · rwa [hsame]
  · rw [hdedent]
    exact wellWritten_dedent shift h

theorem kind_liftedValue (entry inner value : Node) :
    (liftedValue entry inner value).kind = value.kind := by
  rcases liftedValue_cases entry inner value with hsame | ⟨shift, hdedent⟩
  · rw [hsame]
  · rw [hdedent, kind_dedent]

theorem Joins.wellWritten {e e' : Node} (h : Joins e e') (he : WellWritten e) : WellWritten e' := by
  cases h with
  | @intro mapping inner value key colon innerKey innerColon sign hkind hes hkey _ hinner _ hes' _
      hvalue htext hplain _ hsign =>
      have hmapping : WellWritten mapping := he.child (by simp [hes])
      have hwritten : WellWritten inner := hmapping.child (by simp [hinner])
      have hlifted := wellWritten_liftedValue e inner (hwritten.child (show .node value ∈ inner.children by simp [hes']))
      refine ⟨.entry hkind rfl rfl ?_ hlifted.shaped, everywhere_iff.2 ⟨fun _ => ⟨?_, ?_, ?_⟩, ?_⟩⟩
      · rwa [IsValue, kind_liftedValue]
      · exact (he.written e (mem_preorder_self e) hkind).lead
      · intro key' hfound
        rw [@entryKey_entry { e with children := _ } _ ⟨.text, "", _⟩ _ hkind rfl rfl] at hfound
        cases hfound
        exact (keyText_join htext hplain).1
      · exact ⟨sign, by simp [Node.tokens, Element.token?], hsign⟩
      · intro c hc
        obtain rfl : c = liftedValue e inner value := by simpa using hc
        exact hlifted.written

theorem wellWritten_entry {n value value' : Node} {key colon : Token}
    (hes : n.children = [.token key, .token colon, .node value]) (h : WellWritten n)
    (hkind : n.kind = .yaml .entry) (hsame : value'.kind = value.kind) (hvalue : WellWritten value') :
    WellWritten { n with children := [.token key, .token colon, .node value'] } := by
  obtain ⟨_, _, _, hes', hkey, hisValue, _⟩ := h.shaped.entry_children hkind
  rw [hes] at hes'
  cases hes'
  obtain ⟨hlead, htext, hcolon⟩ := h.written n (mem_preorder_self n) hkind
  have htokens : ({ n with children := [.token key, .token colon, .node value'] } : Node).tokens =
      n.tokens := by
    rw [Node.tokens, Node.tokens, hes]
    rfl
  refine ⟨.entry hkind rfl hkey ?_ hvalue.shaped, everywhere_iff.2 ⟨fun _ => ⟨hlead, ?_, ?_⟩, ?_⟩⟩
  · rwa [IsValue, hsame]
  · intro key' hfound
    refine htext ?_
    rwa [entryKey?, htokens] at hfound
  · rwa [htokens]
  · intro c hc
    obtain rfl : c = value' := by simpa using hc
    exact hvalue.written

theorem Coalesced.wellWritten {e e' : Element} (h : Coalesced e e')
    (he : ∀ n, e = .node n → WellWritten n) : ∀ n', e' = .node n' → WellWritten n' := by
  induction h with
  | token t => nofun
  | @group n pairs hkind hes h ih =>
      rintro _ ⟨⟩
      have hn := he n rfl
      have hchild : ∀ c', Element.node c' ∈ pairs.map Prod.snd → WellWritten c' := by
        intro c' hc'
        obtain ⟨p, hp, hc'⟩ := List.mem_map.1 hc'
        exact ih p hp (fun c hc => hn.child (by rw [hes, ← hc]; exact List.mem_map_of_mem hp)) c' hc'
      refine ⟨?_, everywhere_iff.2 ⟨fun hentry => absurd hentry hkind, fun c hc => (hchild c hc).written⟩⟩
      cases hn.shaped with
      | @scalar _ t hscalar hes' =>
          have hpair : pairs.map Prod.snd = [.token t] := by
            obtain ⟨p, rfl, hp⟩ := List.map_eq_singleton_iff.1 (hes.symm.trans hes')
            have hp' := h p List.mem_cons_self
            rw [hp] at hp'
            rw [List.map_singleton, hp'.token_eq]
          exact .scalar hscalar hpair
      | entry hentry => exact absurd hentry hkind
      | mapping hmapping hne honly _ =>
          refine .mapping hmapping (by simpa [hes] using hne) ?_ fun c hc => (hchild c hc).shaped
          intro e he
          obtain ⟨p, hp, rfl⟩ := List.mem_map.1 he
          obtain ⟨c, hc, hentry⟩ := honly p.1 (by rw [hes]; exact List.mem_map_of_mem hp)
          have hp' := h p hp
          rw [hc] at hp'
          obtain ⟨c', hc', hsame, _⟩ := hp'.node
          exact ⟨c', hc', hsame.trans hentry⟩
  | kept hkind hes hkey _ h ih =>
      rintro _ ⟨⟩
      have hn := he _ rfl
      obtain ⟨_, ⟨⟩, hsame, _⟩ := h.node
      have hvalue := ih (fun c hc => by cases hc; exact hn.child (by simp [hes])) _ rfl
      exact wellWritten_entry hes hn hkind hsame hvalue
  | joined hkind hes hkey _ h hjoins ih =>
      rintro _ ⟨⟩
      have hn := he _ rfl
      obtain ⟨_, ⟨⟩, hsame, _⟩ := h.node
      have hvalue := ih (fun c hc => by cases hc; exact hn.child (by simp [hes])) _ rfl
      exact hjoins.wellWritten (wellWritten_entry hes hn hkind hsame hvalue)

/-! ### The walk -/

/-- A visit makes of a well written node what is related to it. -/
def Coalesces : VisitRelation Unit :=
  fun n _ n' _ _ => WellWritten n → Coalesced (.node n) (.node n')

theorem pairs_of_swept {es es' : List Element} {s s' : Unit} {changed : Bool}
    (h : Swept Coalesces es s es' changed s') (hes : ∀ c, Element.node c ∈ es → WellWritten c) :
    ∃ pairs : List (Element × Element), es = pairs.map Prod.fst ∧ es' = pairs.map Prod.snd ∧
      ∀ p ∈ pairs, Coalesced p.1 p.2 := by
  induction h with
  | nil => exact ⟨[], rfl, rfl, nofun⟩
  | @token t _ _ _ _ _ _ ih =>
      obtain ⟨pairs, rfl, rfl, hpairs⟩ := ih fun c hc => hes c (List.mem_cons_of_mem _ hc)
      exact ⟨(.token t, .token t) :: pairs, rfl, rfl, List.forall_mem_cons.2 ⟨.token t, hpairs⟩⟩
  | @node n n' _ _ _ _ _ _ _ hn _ ih =>
      obtain ⟨pairs, rfl, rfl, hpairs⟩ := ih fun c hc => hes c (List.mem_cons_of_mem _ hc)
      exact ⟨(.node n, .node n') :: pairs, rfl, rfl,
        List.forall_mem_cons.2 ⟨hn (hes n List.mem_cons_self), hpairs⟩⟩

theorem leave_other {n : Node} (cursor : Cursor) (hkind : n.kind ≠ .yaml .entry) :
    visitor.leave n cursor () = (none, ()) := by
  show Hooks.leave _ n cursor () = _
  rw [Hooks.leave]
  split <;> first | rfl | contradiction

theorem leave_entry {n : Node} (cursor : Cursor) (hkind : n.kind = .yaml .entry) :
    visitor.leave n cursor () = (fold? n, ()) := by
  show Hooks.leave _ n cursor () = _
  rw [Hooks.leave, hkind]

theorem coalesced_group {n : Node} (hkind : n.kind ≠ .yaml .entry) {es' : List Element}
    {s s' : Unit} {changed : Bool} (hswept : Swept Coalesces n.children s es' changed s')
    (hchildren : ∀ c, Element.node c ∈ n.children → WellWritten c) (cursor : Cursor) :
    Coalesced (.node n)
      (.node ((visitor.leave { n with children := es' } cursor ()).1.getD
        { n with children := es' })) := by
  rw [leave_other cursor (n := { n with children := es' }) hkind]
  obtain ⟨pairs, hes, rfl, hpairs⟩ := pairs_of_swept hswept hchildren
  exact .group hkind hes hpairs

theorem leaves_coalesces : visitor.Leaves Coalesces := by
  intro n cursor s s' es' changed hswept v left hn
  by_cases hkind : n.kind = .yaml .entry
  · obtain ⟨value, key, colon, hes, hkey, _, _⟩ := hn.shaped.entry_children hkind
    have hvalue : WellWritten value := hn.child (by simp [hes])
    rw [hes] at hswept
    cases hswept with
    | token hswept =>
    cases hswept with
    | token hswept =>
    cases hswept with
    | @node _ value' _ _ _ _ _ _ _ hvisit hswept =>
    cases hswept
    have hcoalesced := hvisit hvalue
    obtain ⟨_, ⟨⟩, hsame, _⟩ := hcoalesced.node
    have hv : WellWritten v := wellWritten_entry hes hn hkind hsame
      (hcoalesced.wellWritten (fun _ hc => by cases hc; exact hvalue) _ rfl)
    have hfolds : folds v = folds n := folds_visited hkind hes hkey hcoalesced
    obtain ⟨hjoined, hkept⟩ := fold_of_written (e := v) hkind hv.shaped hv.written
    have hleft : left = (fold? v, ()) := leave_entry cursor hkind
    rw [hleft]
    cases hchoice : folds n with
    | true =>
        obtain ⟨e, hfold, hjoins⟩ := hjoined (hfolds.trans hchoice)
        rw [hfold]
        exact .joined hkind hes hkey hchoice hcoalesced hjoins
    | false =>
        rw [hkept (hfolds.trans hchoice)]
        exact .kept hkind hes hkey hchoice hcoalesced
  · exact coalesced_group hkind hswept (fun c hc => hn.child hc) cursor

/-- The document with its entries folded. -/
def folded (d : Node) : Node :=
  (visitor.walk d ()).1.getD d

/-- What the walk makes of a document. -/
theorem walk_coalesced {d : Node} (hd : DocumentShaped d) (hwritten : d.Everywhere Written) :
    Coalesced (.node d) (.node (folded d)) := by
  have haccepts : visitor.accepts d = true := by
    show (d.kind == .yaml .document) = true
    simp [hd.kind]
  have hentry : d.kind ≠ .yaml .entry := by simp [hd.kind]
  obtain ⟨cursor, es', _, _, hswept, hresult, _⟩ :=
    visitor.walk_left (fun _ _ _ => rfl) leaves_coalesces haccepts ()
  rw [folded, hresult]
  refine coalesced_group hentry hswept (fun c hc => ?_) cursor
  exact ⟨(hd.child hc).2, (everywhere_iff.1 hwritten).2 c hc⟩

theorem Coalesced.document {d d' : Node} (h : Coalesced (.node d) (.node d')) (hd : DocumentShaped d)
    (hwritten : d.Everywhere Written) : DocumentShaped d' ∧ d'.Everywhere Written := by
  have hentry : d.kind ≠ .yaml .entry := by simp [hd.kind]
  cases h with
  | @group _ pairs _ hes h =>
      have hchild : ∀ p ∈ pairs, ∀ c', p.2 = .node c' → WellWritten c' := fun p hp =>
        (h p hp).wellWritten fun c hc => by
          have hmem : Element.node c ∈ d.children := by
            rw [hes, ← hc]
            exact List.mem_map_of_mem hp
          exact ⟨(hd.child hmem).2, (everywhere_iff.1 hwritten).2 c hmem⟩
      refine ⟨⟨hd.kind, ?_⟩, everywhere_iff.2 ⟨fun hk => absurd hk hentry, fun c hc => ?_⟩⟩
      · obtain ⟨_, marker, mapping, last, hes', heof, hmarker, hmapping⟩ := hd
        rw [hes, List.map_eq_append_iff] at hes'
        obtain ⟨front, ends, rfl, hfront, hends⟩ := hes'
        obtain ⟨markers, mappings, rfl, rfl, rfl⟩ := List.map_eq_append_iff.1 hfront
        have hmarkers := coalesced_tokens (fun p hp => h p (by simp [hp])) fun e he =>
          (hmarker e he).imp fun t ht => ht.1
        have hlast := @coalesced_tokens ends (fun p hp => h p (by simp [hp])) fun e he => by
          rw [hends, List.mem_singleton] at he
          exact ⟨last, he⟩
        refine ⟨_, mappings.map Prod.snd, last, ?_, heof, hmarker, ?_⟩
        · rw [List.map_append, List.map_append, hmarkers, hlast, hends]
        · rcases hmapping with hnone | ⟨m, hm, hkind, _⟩
          · exact .inl (by simpa using hnone)
          · obtain ⟨p, rfl, hp⟩ := List.map_eq_singleton_iff.1 hm
            have hcoalesced := h p (by simp)
            rw [hp] at hcoalesced
            obtain ⟨m', hm', hsame, _⟩ := hcoalesced.node
            exact .inr ⟨m', by rw [List.map_singleton, hm'], hsame.trans hkind,
              (hchild p (by simp) m' hm').shaped⟩
      · obtain ⟨p, hp, hc⟩ := List.mem_map.1 hc
        exact (hchild p hp c hc).written
  | kept hkind => exact absurd hkind hentry
  | joined hkind => exact absurd hkind hentry

/-! ### Scalars and their paths -/

theorem leafPaths_dedent (shift : Nat) (path : List String) (n : Node) :
    leafPaths path (dedent shift n) = leafPaths path n := by
  induction n using Node.induction_on generalizing path with
  | step n ih =>
      have hlist : ∀ path, leafPathsList path (n.children.map (dedentElement shift)) =
          leafPathsList path n.children := by
        intro path
        rw [leafPathsList_eq, leafPathsList_eq, filterMap_dedent, List.flatMap_map]
        exact List.flatMap_congr fun c hc => ih c (mem_childNodes.1 hc) path
      have hscalar := scalarText_dedent shift n
      have hsegments : entrySegments (dedent shift n) = entrySegments n := by
        simpa [keyPath] using @keyPath_congr [n] [dedent shift n]
          (by simp [keyText_dedent])
      obtain ⟨kind, lead, children, markers, type?⟩ := n
      rw [dedent, dedentList_eq] at hscalar hsegments ⊢
      rw [leafPaths, leafPaths, hsegments, hscalar, hlist, hlist]

theorem Joins.leafPaths {e e' : Node} (h : Joins e e') (path : List String) :
    leafPaths path e' = leafPaths path e := by
  cases h with
  | @intro mapping inner value key colon innerKey innerColon sign hkind hes hkey hmapping hinner hkind'
      hes' hkey' _ htext hplain hplain' _ =>
      have hlifted : Yaml.leafPaths (path ++ keySegments (key.text ++ "." ++ innerKey.text))
          (liftedValue e inner value) =
            Yaml.leafPaths (path ++ keySegments (key.text ++ "." ++ innerKey.text)) value := by
        rcases liftedValue_cases e inner value with hsame | ⟨shift, hdedent⟩
        · rw [hsame]
        · rw [hdedent, leafPaths_dedent]
      have hvalue : ∀ path, Yaml.leafPaths path mapping =
          Yaml.leafPaths (path ++ keySegments innerKey.text) value := by
        intro path
        have hkind'' : mapping.kind ≠ .yaml .entry ∧ mapping.kind ≠ .yaml .scalar := by
          simp [hmapping]
        rw [leafPaths_inner hkind''.1 hkind''.2, hinner, leafPathsList_eq,
          ← entrySegments_entry hkind' hes' hkey', ← leafPaths_entry hkind' hes']
        simp [Element.node?]
      rw [@leafPaths_entry { e with children := _ } _ _ _ hkind rfl,
        @entrySegments_entry { e with children := _ } _ ⟨.text, "", _⟩ _ hkind rfl rfl, hlifted,
        keySegments_join htext hplain hplain', leafPaths_entry hkind hes, hvalue,
        entrySegments_entry hkind hes hkey, List.append_assoc]

theorem scalarText_group {n : Node} {pairs : List (Element × Element)}
    (hes : n.children = pairs.map Prod.fst) (h : ∀ p ∈ pairs, Coalesced p.1 p.2) :
    scalarText? { n with children := pairs.map Prod.snd } = scalarText? n := by
  have htokens : (pairs.map Prod.snd).filterMap Element.token? =
      n.children.filterMap Element.token? := by
    rw [hes, List.filterMap_map, List.filterMap_map]
    exact List.filterMap_congr fun p hp => (h p hp).token_same
  rw [scalarText?, scalarText?, Node.tokens, Node.tokens, htokens]

theorem leafPaths_value {n value value' : Node} {key colon : Token} (hkind : n.kind = .yaml .entry)
    (hes : n.children = [.token key, .token colon, .node value]) (hkey : key.kind = .text)
    (h : ∀ path, leafPaths path value' = leafPaths path value) (path : List String) :
    leafPaths path { n with children := [.token key, .token colon, .node value'] } =
      leafPaths path n := by
  rw [leafPaths_entry hkind hes, entrySegments_entry hkind hes hkey, ← h,
    @leafPaths_entry { n with children := _ } _ _ _ hkind rfl,
    @entrySegments_entry { n with children := _ } _ _ _ hkind rfl hkey]

theorem Coalesced.leafPaths {e e' : Element} (h : Coalesced e e') (path : List String) :
    leafPathsElement path e' = leafPathsElement path e := by
  induction h generalizing path with
  | token t => rfl
  | @group n pairs hkind hes h ih =>
      obtain ⟨nodes, hfst, hsnd, hmem⟩ := coalesced_childNodes h
      have hlist : leafPathsList path (pairs.map Prod.snd) = leafPathsList path n.children := by
        rw [leafPathsList_eq, leafPathsList_eq, hes, hfst, hsnd, List.flatMap_map, List.flatMap_map]
        refine List.flatMap_congr fun q hq => ?_
        obtain ⟨p, hp, rfl⟩ := hmem q hq
        exact ih _ hp path
      have hscalar := scalarText_group hes h
      obtain ⟨kind, lead, children, markers, type?⟩ := n
      rw [leafPathsElement, leafPathsElement, Yaml.leafPaths, Yaml.leafPaths, if_neg hkind,
        if_neg hkind, hscalar, hlist]
  | kept hkind hes hkey _ _ ih => exact leafPaths_value hkind hes hkey ih path
  | joined hkind hes hkey _ _ hjoins ih =>
      exact (hjoins.leafPaths path).trans (leafPaths_value hkind hes hkey ih path)

/-! ### Nothing is left to fold -/

theorem onlyChild_dedent (shift : Nat) (n : Node) :
    onlyChild? (dedent shift n) = (onlyChild? n).map (dedent shift) := by
  rw [onlyChild?, onlyChild?, childNodes_dedent]
  rcases n.childNodes with _ | ⟨c, _ | ⟨c', cs⟩⟩ <;> rfl

theorem hasPlainKey_dedent (shift : Nat) (n : Node) :
    hasPlainKey (dedent shift n) = hasPlainKey n := by
  rw [hasPlainKey, keyText_dedent, hasPlainKey]

theorem folds_dedent (shift : Nat) (n : Node) : folds (dedent shift n) = folds n := by
  simp only [folds, entryValue_dedent, Option.any_map, kind_dedent, onlyChild_dedent,
    hasPlainKey_dedent, lead_dedent, sign_dedentText]

theorem folds_other {n : Node} (hkind : n.kind ≠ .yaml .entry) : folds n = false := by
  simp [folds, entryValue?, hkind]

theorem Joins.folds_below {e e' m : Node} (h : Joins e e') (hm : m ∈ e'.preorder) :
    ∃ c, Element.node c ∈ e.children ∧ ∃ m' ∈ c.preorder, folds m = folds m' := by
  cases h with
  | @intro mapping inner value key colon innerKey innerColon sign hkind hes _ _ hinner hkind' hes' hkey'
      _ htext hplain hplain' _ =>
      refine ⟨mapping, by simp [hes], ?_⟩
      have hbelow : ∀ m' ∈ inner.preorder, m' ∈ mapping.preorder := fun m' hm' =>
        mem_preorder.2 (.inr ⟨inner, by simp [hinner], hm'⟩)
      rcases mem_preorder.1 hm with rfl | ⟨c, hc, hm⟩
      · refine ⟨inner, hbelow inner (mem_preorder_self inner), ?_⟩
        rw [folds_entry hkind' hes' hkey', hplain',
          @folds_entry { e with children := _ } _ ⟨.text, "", _⟩ _ hkind rfl rfl,
          (keyText_join htext hplain).2]
        rcases liftedValue_cases e inner value with hsame | ⟨shift, hdedent⟩
        · rw [hsame]
        · simp only [hdedent, kind_dedent, onlyChild_dedent, Option.any_map, hasPlainKey_dedent,
            lead_dedent, sign_dedentText]
      · obtain rfl : c = liftedValue e inner value := by simpa using hc
        have hvalue : ∀ m' ∈ value.preorder, m' ∈ mapping.preorder := fun m' hm' =>
          hbelow m' (mem_preorder.2 (.inr ⟨value, by simp [hes'], hm'⟩))
        rcases liftedValue_cases e inner value with hsame | ⟨shift, hdedent⟩
        · rw [hsame] at hm
          exact ⟨m, hvalue m hm, rfl⟩
        · rw [hdedent, preorder_dedent] at hm
          obtain ⟨m', hm', rfl⟩ := List.mem_map.1 hm
          exact ⟨m', hvalue m' hm', folds_dedent shift m'⟩

theorem Coalesced.settled {e e' : Element} (h : Coalesced e e') :
    ∀ m ∈ e'.preorder, folds m = false := by
  induction h with
  | token => nofun
  | group hkind _ _ ih =>
      intro m hm
      rcases mem_preorder.1 hm with rfl | ⟨c, hc, hm⟩
      · exact folds_other hkind
      · obtain ⟨p, hp, hc⟩ := List.mem_map.1 hc
        exact ih p hp m (by rwa [hc])
  | @kept n value value' key colon hkind hes hkey hfolds h ih =>
      intro m hm
      rcases mem_preorder.1 hm with rfl | ⟨c, hc, hbelow⟩
      · exact (folds_visited hkind hes hkey h).trans hfolds
      · obtain rfl : c = value' := by simpa using hc
        exact ih m hbelow
  | @joined n value value' e key colon _ _ _ _ _ hjoins ih =>
      intro m hm
      obtain ⟨c, hc, m', hm', hsame⟩ := hjoins.folds_below hm
      obtain rfl : c = value' := by simpa using hc
      exact hsame.trans (ih m' hm')

/-! ### The recipe -/

theorem apply_eq (state : Recipe.Applied) :
    (coalesceProperties.apply state).root = folded state.root := by
  have hpass : (coalesceProperties.pass?.bind fun pass => pass state.root) =
      (visitor.walk state.root ()).1 := rfl
  show (Recipe.applyOwn coalesceProperties state).root = _
  rw [Recipe.applyOwn, hpass, folded]
  cases (visitor.walk state.root ()).1 <;> rfl

/-- Every scalar of a document stays where it is in their order and under its path. Of no entry that
is left is the value a mapping of one entry, unless one of the two keys is quoted or a comment
stands before the inner one. -/
theorem coalesceProperties_folds {source : String} {d : Node} (h : parseDocument source = .ok d) :
    let result := coalesceProperties.apply ⟨d, []⟩
    leaves result.root = leaves d ∧
      ∀ entry ∈ result.root.preorder, ∀ value inner, entryValue? entry = some value →
        value.kind = .yaml .mapping → value.childNodes = [inner] →
          hasPlainKey entry = false ∨ hasPlainKey inner = false ∨ '#' ∈ inner.lead.toList := by
  intro result
  have hwalk : Coalesced (.node d) (.node result.root) :=
    apply_eq ⟨d, []⟩ ▸ walk_coalesced (shaped_of_parseDocument h) (written_of_parseDocument h)
  refine ⟨hwalk.leafPaths [], fun entry hentry value inner hvalue hmapping hinner => ?_⟩
  have hfolds := hwalk.settled entry hentry
  have honly : onlyChild? value = some inner := by rw [onlyChild?, hinner]
  rw [folds, hvalue, Option.any_some, honly, Option.any_some, hmapping] at hfolds
  simp only [beq_self_eq_true, Bool.true_and, Bool.and_eq_false_iff, Bool.not_eq_false',
    List.contains_iff_mem] at hfolds
  rwa [or_assoc] at hfolds

/-- A chain of mappings folds as far as a quoted key or a comment lets it. -/
theorem coalesceProperties_folds_chain :
    let source := "a:\n  b:\n    c: 1\nd:\n  'e':\n    f: 2\ng:\n  # n\n  h:\n    i: 3\n"
    ∃ d, parseDocument source = .ok d ∧
      (coalesceProperties.apply ⟨d, []⟩).root.print =
        "a.b.c: 1\nd:\n  'e':\n    f: 2\ng:\n  # n\n  h.i: 3\n" ∧
      leaves (coalesceProperties.apply ⟨d, []⟩).root =
        [(["a", "b", "c"], "1"), (["d", "e", "f"], "2"), (["g", "h", "i"], "3")] := by
  intro source
  have hruns : (parseDocument source).toOption.map (fun d =>
      ((coalesceProperties.apply ⟨d, []⟩).root.print, leaves d)) =
        some ("a.b.c: 1\nd:\n  'e':\n    f: 2\ng:\n  # n\n  h.i: 3\n",
          [(["a", "b", "c"], "1"), (["d", "e", "f"], "2"), (["g", "h", "i"], "3")]) := by
    decide +kernel
  cases hdocument : parseDocument source with
  | error e =>
      rw [hdocument] at hruns
      cases hruns
  | ok d =>
      rw [hdocument] at hruns
      simp only [Except.toOption, Option.map_some, Option.some.injEq, Prod.mk.injEq] at hruns
      exact ⟨d, rfl, hruns.1, (coalesceProperties_folds hdocument).1.trans hruns.2⟩

end Codemod.Recipes.Folding
