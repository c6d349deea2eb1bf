import Codemod.Proofs.Recipes.CutPieces
import Codemod.Proofs.Recipes.FoldedReparsing
import Codemod.Proofs.Yaml.Returns

/-!
Lines that end with a carriage return behind folding. The lines of a folded document are those of the
document, with less indentation, but the one on which a joined entry stood. So its lines end with
carriage returns if and only if those of the document do, where the line in front of each entry that
may be joined does.
-/

namespace Codemod.Recipes.Folding

open Codemod.Tree Codemod.Yaml

/-! ### Less indentation -/

theorem returnsBehind_dedentChars (shift : Nat) {before? : Option Char} {pending : Nat}
    {cs : List Char} (h : pending = 0 ∨ before? ≠ some '\r') :
    returnsBehind before? (dedentChars shift pending cs) = returnsBehind before? cs := by
  fun_induction dedentChars shift pending cs generalizing before? with
  | case1 => rfl
  | case2 pending rest ih => rw [returnsBehind, returnsBehind, ih (.inr (by decide))]
  | case3 rest hbreak ih => rw [returnsBehind, returnsBehind, ih (.inl rfl)]
  | case4 rest pending hbreak ih =>
      have hbefore := h.resolve_left (Nat.succ_ne_zero pending)
      rw [ih (.inr hbefore), returnsBehind, returnsBehind_eq hbefore,
        @returnsBehind_eq (some ' ') (by decide)]
      rfl
  | case5 pending c rest hbreak hspace ih => rw [returnsBehind, returnsBehind, ih (.inl rfl)]

theorem returns_dedentText (shift : Nat) (lead : String) :
    Returns (dedentText shift lead).toList ↔ Returns lead.toList := by
  rw [Returns, dedentText, String.toList_ofList, returnsBehind_dedentChars shift (.inl rfl), Returns]

/-! ### What is written for entries -/

/-- What is written for the entries below a node, each behind its trivia. -/
def views (n : Node) : List (String × List Char) :=
  (pieces [] n).map Deletion.Piece.view

section
variable {n : Node}

theorem views_entry {value : Node} {key colon : Token} (hkind : n.kind = .yaml .entry)
    (hes : n.children = [.token key, .token colon, .node value]) :
    views n = (n.lead, ownText n.children) :: views value := by
  rw [views, pieces_entry hkind hes, List.map_cons, Deletion.view_pieces _ [] value]
  rfl

theorem views_scalar {t : Token} (hkind : n.kind = .yaml .scalar) (hes : n.children = [.token t]) :
    views n = [] := by
  rw [views, pieces_scalar hkind hes]
  rfl

theorem views_mapping (hkind : n.kind = .yaml .mapping) : views n = n.childNodes.flatMap views := by
  rw [views, pieces_mapping hkind, piecesList_eq, List.map_flatMap]
  rfl

end

theorem ownText_entry (key colon : Token) (value : Node) :
    ownText [.token key, .token colon, .node value] = key.print.toList ++ (colon.print.toList ++
      if value.kind = .yaml .mapping then [] else value.print.toList) := by
  simp [ownText]

theorem dedent_token {shift : Nat} {t : Token} (h : '\n' ∉ t.print.toList) :
    ({ t with lead := dedentText shift t.lead } : Token) = t := by
  have hline : '\n' ∉ t.lead.toList := fun hmem => h (by simp [Token.print, hmem])
  have hsame := dedentText_line shift hline
  rw [String.ofList_toList] at hsame
  rw [hsame]

theorem dedent_scalar {shift : Nat} {n : Node} {t : Token} (hkind : n.kind = .yaml .scalar)
    (hes : n.children = [.token t]) (h : '\n' ∉ n.print.toList) : dedent shift n = n := by
  rw [print_yaml hkind, hes, String.toList_append, List.mem_append, not_or] at h
  have hsame := dedentText_line shift h.1
  rw [String.ofList_toList] at hsame
  have htoken := @dedent_token shift t (by
    simpa [Node.printList, Element.print, Layout.delimiters] using h.2)
  rw [dedent_eq, hsame, hes, List.map_singleton, dedentElement, htoken, ← hes,
    Deletion.eta_eq]

theorem ownText_dedent {shift : Nat} {n value : Node} {key colon : Token}
    (hes : n.children = [.token key, .token colon, .node value]) (hvalue : IsValue value)
    (hshaped : Shaped value) (h : '\n' ∉ ownText n.children) :
    ownText (dedent shift n).children = ownText n.children := by
  rw [hes, ownText_entry] at h
  simp only [List.mem_append, not_or] at h
  obtain ⟨hkey, hcolon, hbelow⟩ := h
  rw [children_dedent, hes, List.map_cons, List.map_cons, List.map_singleton, dedentElement,
    dedentElement, dedentElement, dedent_token hkey, dedent_token hcolon]
  refine ownText_congr (kind_dedent shift value) fun hne => ?_
  have hscalar := hvalue.resolve_right hne
  rw [if_neg hne] at hbelow
  cases hshaped with
  | scalar hkind hes' => exact dedent_scalar hkind hes' hbelow
  | entry hkind => simp [hscalar] at hkind
  | mapping hkind => simp [hscalar] at hkind

theorem views_dedent (shift : Nat) {n : Node} (h : Shaped n) (hline : ∀ v ∈ views n, '\n' ∉ v.2) :
    views (dedent shift n) = (views n).map fun v => (dedentText shift v.1, v.2) := by
  induction h with
  | scalar hkind hes =>
      rw [views_scalar hkind hes]
      exact views_scalar ((kind_dedent shift _).trans hkind) (by rw [children_dedent, hes]; rfl)
  | @entry n value key colon hkind hes _ hvalue hshaped ih =>
      rw [views_entry hkind hes] at hline ⊢
      obtain ⟨hown, hbelow⟩ := List.forall_mem_cons.1 hline
      have hes' : (dedent shift n).children = [.token { key with lead := dedentText shift key.lead },
          .token { colon with lead := dedentText shift colon.lead }, .node (dedent shift value)] := by
        rw [children_dedent, hes]
        rfl
      rw [views_entry ((kind_dedent shift n).trans hkind) hes', ih hbelow,
        ownText_dedent hes hvalue hshaped hown, lead_dedent, List.map_cons]
  | @mapping n hkind _ _ _ ih =>
      rw [views_mapping hkind] at hline ⊢
      rw [views_mapping ((kind_dedent shift n).trans hkind), childNodes_dedent, List.flatMap_map,
        List.map_flatMap]
      refine List.flatMap_congr fun c hc => ih c (mem_childNodes.1 hc) fun v hv => hline v ?_
      exact List.mem_flatMap.2 ⟨c, hc, hv⟩

/-! ### One entry -/

theorem childNodes_scalar {n : Node} (h : Shaped n) (hkind : n.kind = .yaml .scalar) :
    n.childNodes = [] := by
  cases h with
  | scalar _ hes =>
      rw [Node.childNodes, hes]
      rfl
  | entry hentry => simp [hkind] at hentry
  | mapping hmapping => simp [hkind] at hmapping

theorem mem_of_childNodes {n c : Node} (h : n.childNodes = [c]) : Element.node c ∈ n.children := by
  have hmem : c ∈ n.childNodes := by simp [h]
  exact mem_childNodes.1 hmem

theorem childNodes_inner {entry inner : Node} (h : inner? entry = some inner) :
    ∃ mapping, entryValue? entry = some mapping ∧ mapping.childNodes = [inner] := by
  obtain ⟨mapping, hmapping, honly⟩ := Option.bind_eq_some_iff.1 h
  refine ⟨mapping, hmapping, ?_⟩
  rw [onlyChild?] at honly
  split at honly
  · next hnodes =>
      cases honly
      exact hnodes
  · cases honly

theorem fold_eq_some {e e' : Node} (h : fold? e = some e') :
    ∃ key inner innerKey colon value, entryKey? e = some key ∧ inner? e = some inner ∧
      entryKey? inner = some innerKey ∧ colon ∈ inner.tokens ∧ colon.text = ":" ∧
        entryValue? inner = some value ∧
          e' = { e with
            children :=
              [ .token ⟨.text, "", key.text ++ "." ++ innerKey.text⟩, .token colon,
                .node (liftedValue e inner value) ] } := by
  simp only [fold?, Option.bind_eq_bind, Option.bind_eq_some_iff, Option.filter_eq_some_iff] at h
  obtain ⟨key, hkey, mapping, ⟨hmapping, _⟩, inner, honly, innerKey, hinnerKey, h⟩ := h
  split_ifs at h
  obtain ⟨colon, hcolon, value, hvalue, h⟩ := by
    simpa only [Option.bind_eq_some_iff, Option.some.injEq] using h
  refine ⟨key, inner, innerKey, colon, value, hkey, ?_, hinnerKey, List.mem_of_find?_eq_some hcolon,
    by simpa using List.find?_some hcolon, hvalue, h.symm⟩
  rw [inner?, hmapping, Option.bind_some, honly]

/-- The texts of the entries below a node stay in their lines. -/
def InlineTexts (n : Node) : Prop :=
  ∀ v ∈ views n, Inline v.2

/-- The trivia in front of each entry below a node ends its lines with carriage returns. -/
def ReturningLeads (n : Node) : Prop :=
  ∀ v ∈ views n, Returns v.1.toList

theorem inline_colon_behind {front behind : List Char} (h : Inline (front ++ behind)) :
    Inline (':' :: behind) := by
  obtain ⟨-, hline, hlast⟩ := h
  refine ⟨by simp, by simpa using fun hmem => hline (by simp [hmem]), ?_⟩
  rw [List.getLast?_append] at hlast
  rw [List.getLast?_cons]
  cases hbehind : behind.getLast? with
  | none => simp
  | some c => simpa [hbehind] using hlast

theorem inline_joined {key colon innerKey innerColon sign : Token} {mapping innerValue value : Node}
    (hmapping : mapping.kind = .yaml .mapping) (hsame : value.kind = innerValue.kind)
    (hvalue : innerValue.kind ≠ .yaml .mapping → value = innerValue)
    (hsign : sign ∈ [innerKey, innerColon]) (hcolon : sign.text = ":")
    (hown : Inline (ownText [.token key, .token colon, .node mapping]))
    (hinner : Inline (ownText [.token innerKey, .token innerColon, .node innerValue])) :
    Inline (ownText [ .token ⟨.text, "", key.text ++ "." ++ innerKey.text⟩, .token sign,
      .node value]) := by
  rw [ownText_congr hsame hvalue, ownText_entry, ← List.append_assoc]
  rw [ownText_entry, if_pos hmapping] at hown
  rw [ownText_entry] at hinner
  have hkey : '\n' ∉ key.text.toList := fun hmem => hown.line (by simp [Token.print, hmem])
  have hinnerKey : '\n' ∉ innerKey.text.toList := fun hmem => hinner.line (by simp [Token.print, hmem])
  have hlead : '\n' ∉ sign.lead.toList := fun hmem => by
    refine hinner.line ?_
    rcases List.mem_cons.1 hsign with rfl | hsign
    · simp [Token.print, hmem]
    · obtain rfl := List.mem_singleton.1 hsign
      simp [Token.print, hmem]
  rw [← List.append_assoc] at hinner
  refine Eq.subst (motive := Inline) ?_ ((inline_colon_behind hinner).append
    (show '\n' ∉ key.text.toList ++ '.' :: innerKey.text.toList ++ sign.lead.toList by
      simp [hkey, hinnerKey, hlead]))
  simp [Token.print, hcolon]

theorem views_liftedValue {entry inner value : Node} (h : Shaped value) (hinline : InlineTexts value) :
    InlineTexts (liftedValue entry inner value) ∧
      (ReturningLeads (liftedValue entry inner value) ↔ ReturningLeads value) := by
  rcases liftedValue_cases entry inner value with hsame | ⟨shift, hshift⟩
  · rw [hsame]
    exact ⟨hinline, Iff.rfl⟩
  · have hviews := views_dedent shift h fun v hv => (hinline v hv).line
    rw [hshift, InlineTexts, ReturningLeads, ReturningLeads, hviews, List.forall_mem_map,
      List.forall_mem_map]
    exact ⟨hinline, forall₂_congr fun v _ => returns_dedentText shift v.1⟩

/-- The line in front of the only entry of the value ends with a carriage return. -/
def FirstReturns (entry : Node) : Prop :=
  ∀ inner ∈ inner? entry, Returns inner.lead.toList

theorem views_fold {v e' : Node} (hv : Shaped v) (hkind : v.kind = .yaml .entry)
    (hfold : fold? v = some e') (hinline : InlineTexts v) (hfirst : FirstReturns v) :
    InlineTexts e' ∧ (ReturningLeads e' ↔ ReturningLeads v) := by
  obtain ⟨value, key, colon, hes, hkey, hisValue, hshaped⟩ := hv.entry_children hkind
  obtain ⟨_, inner, _, sign, _, hfoundKey, hinner, hfoundKey', hsign, hcolon, hfoundValue, rfl⟩ :=
    fold_eq_some hfold
  have hreturns : Returns inner.lead.toList := hfirst inner hinner
  obtain ⟨mapping, hvalue, hnodes⟩ := childNodes_inner hinner
  obtain rfl : value = mapping := Option.some.inj ((entryValue_entry hkind hes).symm.trans hvalue)
  have hmapping : value.kind = .yaml .mapping := by
    refine hisValue.resolve_left fun hscalar => ?_
    rw [childNodes_scalar hshaped hscalar] at hnodes
    cases hnodes
  have hmem : Element.node inner ∈ value.children := mem_of_childNodes hnodes
  obtain ⟨_, ⟨⟩, hkind'⟩ := (mapping_of_shaped hshaped (mem_preorder_self _) hmapping).2 _ hmem
  obtain ⟨innerValue, innerKey, innerColon, hes', hkey', hisValue', hshaped'⟩ :=
    (hshaped.child hmem).entry_children hkind'
  rw [entryKey_entry hkind hes hkey, Option.some.injEq] at hfoundKey
  rw [entryKey_entry hkind' hes' hkey', Option.some.injEq] at hfoundKey'
  rw [entryValue_entry hkind' hes', Option.some.injEq] at hfoundValue
  subst hfoundKey hfoundKey' hfoundValue
  have hviews : views v = (v.lead, ownText v.children) ::
      (inner.lead, ownText inner.children) :: views innerValue := by
    rw [views_entry hkind hes, views_mapping hmapping, hnodes, List.flatMap_cons,
      views_entry hkind' hes', List.flatMap_nil, List.append_nil]
  rw [InlineTexts, hviews, List.forall_mem_cons, List.forall_mem_cons, hes, hes'] at hinline
  obtain ⟨hown, hown', hbelow⟩ := hinline
  obtain ⟨hlifted, hends⟩ := @views_liftedValue v inner innerValue hshaped' hbelow
  have hsign : sign ∈ [innerKey, innerColon] := by
    simpa [Node.tokens, hes', Element.token?] using hsign
  have hstays : innerValue.kind ≠ .yaml .mapping → liftedValue v inner innerValue = innerValue :=
    fun hne => if_neg hne
  have hjoined := inline_joined hmapping (kind_liftedValue v inner innerValue) hstays hsign hcolon
    hown hown'
  rw [InlineTexts, ReturningLeads, ReturningLeads, hviews,
    @views_entry { v with children := _ } _ _ _ hkind rfl]
  refine ⟨List.forall_mem_cons.2 ⟨hjoined, hlifted⟩, ?_⟩
  rw [List.forall_mem_cons, List.forall_mem_cons, List.forall_mem_cons]
  exact and_congr_right fun _ => (hends.trans (and_iff_right hreturns).symm)

/-! ### Trees -/

theorem foldList_eq (es : List Element) : foldList es = es.map foldElement := by
  induction es with
  | nil => rfl
  | cons e es ih => rw [foldList, ih, List.map_cons]

theorem childNodes_foldList (n : Node) :
    ({ n with children := foldList n.children } : Node).childNodes = n.childNodes.map foldTree := by
  rw [Node.childNodes, Node.childNodes, foldList_eq, List.filterMap_map, List.map_filterMap]
  congr 1
  funext e
  cases e <;> rfl

theorem foldTree_leaf {n : Node} {t : Token} (hkind : n.kind = .yaml .scalar)
    (hes : n.children = [.token t]) : foldTree n = n := by
  rw [foldTree_other (by simp [hkind]), hes]
  exact (congrArg (fun es => ({ n with children := es } : Node)) hes.symm).trans (Deletion.eta_eq n)

theorem firstReturns_visited {n value : Node} {key colon : Token} (hkind : n.kind = .yaml .entry)
    (hes : n.children = [.token key, .token colon, .node value]) (hvalue : WellWritten value)
    (hisValue : IsValue value) (h : FirstReturns n) :
    FirstReturns { n with children := [.token key, .token colon, .node (foldTree value)] } := by
  intro inner' hinner'
  rw [inner?, @entryValue_entry { n with children := _ } _ _ _ hkind rfl, Option.bind_some] at hinner'
  have hentry : value.kind ≠ .yaml .entry := by
    rcases hisValue with hvalue | hvalue <;> simp [hvalue]
  obtain ⟨_, hnone⟩ | ⟨inner, inner'', hfound, hfound', hcoalesced⟩ :=
    onlyChild_coalesced hentry (coalesced_foldTree hvalue)
  · rw [hnone] at hinner'
    cases hinner'
  · obtain rfl : inner'' = inner' := Option.some.inj (hfound'.symm.trans hinner')
    obtain ⟨_, ⟨⟩, _, hlead, _⟩ := hcoalesced.node
    rw [hlead]
    refine h inner ?_
    rw [inner?, entryValue_entry hkind hes, Option.bind_some]
    exact hfound

theorem views_foldTree {n : Node} (h : WellWritten n) (hinline : InlineTexts n)
    (hfirst : n.Everywhere FirstReturns) :
    InlineTexts (foldTree n) ∧ (ReturningLeads (foldTree n) ↔ ReturningLeads n) := by
  induction n using Node.induction_on with
  | step n ih =>
  obtain ⟨hhere, hbelow⟩ := everywhere_iff.1 hfirst
  cases h.shaped with
  | scalar hkind hes =>
      rw [foldTree_leaf hkind hes]
      exact ⟨hinline, Iff.rfl⟩
  | @entry _ value key colon hkind hes hkey hisValue hshaped =>
      have hmem : Element.node value ∈ n.children := by simp [hes]
      have hvalue := h.child hmem
      rw [InlineTexts, views_entry hkind hes, List.forall_mem_cons] at hinline
      obtain ⟨htexts, hends⟩ := ih value hmem hvalue hinline.2 (hbelow value hmem)
      obtain ⟨_, ⟨⟩, hsame, _⟩ := (coalesced_foldTree hvalue).node
      let v : Node := { n with children := [.token key, .token colon, .node (foldTree value)] }
      have hown : ownText v.children = ownText n.children := by
        rw [hes]
        refine ownText_congr hsame fun hne => ?_
        cases hshaped with
        | scalar hscalar hes' => exact foldTree_leaf hscalar hes'
        | entry hentry => rcases hisValue with hvalue | hvalue <;> simp [hvalue] at hentry
        | mapping hmapping => exact absurd hmapping hne
      have hviews : views v = (n.lead, ownText n.children) :: views (foldTree value) := by
        rw [← hown]
        exact @views_entry v _ _ _ hkind rfl
      have hv : InlineTexts v ∧ (ReturningLeads v ↔ ReturningLeads n) := by
        rw [InlineTexts, ReturningLeads, ReturningLeads, hviews, views_entry hkind hes,
          List.forall_mem_cons, List.forall_mem_cons, List.forall_mem_cons]
        exact ⟨⟨hinline.1, htexts⟩, and_congr_right fun _ => hends⟩
      have hfolded : foldTree n = (fold? v).getD v := by
        rw [foldTree_entry hkind, hes]
        rfl
      rw [hfolded]
      cases hfold : fold? v with
      | none => exact hv
      | some e' =>
          have hshapedv : Shaped v := .entry hkind rfl hkey (by rwa [IsValue, hsame])
            ((coalesced_foldTree hvalue).wellWritten (fun _ hc => by cases hc; exact hvalue) _ rfl).shaped
          obtain ⟨htexts', hends'⟩ := views_fold hshapedv hkind hfold hv.1
            (firstReturns_visited hkind hes hvalue hisValue hhere)
          exact ⟨htexts', hends'.trans hv.2⟩
  | mapping hkind _ _ _ =>
      have hchild : ∀ c ∈ n.childNodes, InlineTexts c →
          InlineTexts (foldTree c) ∧ (ReturningLeads (foldTree c) ↔ ReturningLeads c) :=
        fun c hc hinline => ih c (mem_childNodes.1 hc) (h.child (mem_childNodes.1 hc)) hinline
          (hbelow c (mem_childNodes.1 hc))
      have hfolded : views (foldTree n) = (n.childNodes.map foldTree).flatMap views := by
        rw [foldTree_other (by simp [hkind]), views_mapping (by exact hkind), childNodes_foldList]
      rw [InlineTexts, views_mapping hkind, List.forall_mem_flatMap] at hinline
      rw [InlineTexts, ReturningLeads, ReturningLeads, hfolded, views_mapping hkind,
        List.forall_mem_flatMap, List.forall_mem_flatMap, List.forall_mem_flatMap,
        List.forall_mem_map, List.forall_mem_map]
      exact ⟨fun c hc => (hchild c hc (hinline c hc)).1,
        forall₂_congr fun c hc => (hchild c hc (hinline c hc)).2⟩

/-! ### Documents -/

theorem blank_dedent (shift : Nat) {n : Node} (h : n.Everywhere BlankMapping) :
    (dedent shift n).Everywhere BlankMapping := by
  intro m hm hkind
  rw [preorder_dedent] at hm
  obtain ⟨m', hm', rfl⟩ := List.mem_map.1 hm
  rw [kind_dedent] at hkind
  rw [lead_dedent, h m' hm' hkind]
  rfl

theorem mem_entryValue {n value : Node} (h : entryValue? n = some value) :
    Element.node value ∈ n.children := by
  rw [entryValue?] at h
  split_ifs at h
  exact mem_childNodes.1 (List.mem_of_getLast? h)

theorem mem_inner {entry inner : Node} (h : inner? entry = some inner) : inner ∈ entry.preorder := by
  obtain ⟨mapping, hmapping, hnodes⟩ := childNodes_inner h
  exact mem_preorder.2 (.inr ⟨mapping, mem_entryValue hmapping,
    mem_preorder.2 (.inr ⟨inner, mem_of_childNodes hnodes, mem_preorder_self inner⟩)⟩)

theorem blank_fold {v e' : Node} (hfold : fold? v = some e') (hv : v.Everywhere BlankMapping) :
    e'.Everywhere BlankMapping := by
  obtain ⟨_, inner, _, _, value, _, hinner, _, _, _, hvalue, rfl⟩ := fold_eq_some hfold
  refine everywhere_iff.2 ⟨(everywhere_iff.1 hv).1, fun c hc => ?_⟩
  obtain rfl : c = liftedValue v inner value := by simpa using hc
  have hbelow : value.Everywhere BlankMapping := fun m hm =>
    hv m (mem_preorder_trans hm (mem_preorder_trans (mem_preorder.2
      (.inr ⟨value, mem_entryValue hvalue, mem_preorder_self value⟩)) (mem_inner hinner)))
  rcases liftedValue_cases v inner value with hsame | ⟨shift, hshift⟩
  · rwa [hsame]
  · rw [hshift]
    exact blank_dedent shift hbelow

theorem blank_foldTree {n : Node} (h : n.Everywhere BlankMapping) :
    (foldTree n).Everywhere BlankMapping := by
  induction n using Node.induction_on with
  | step n ih =>
      obtain ⟨hhere, hbelow⟩ := everywhere_iff.1 h
      have hv : ({ n with children := foldList n.children } : Node).Everywhere BlankMapping := by
        refine everywhere_iff.2 ⟨hhere, fun c hc => ?_⟩
        rw [foldList_eq] at hc
        obtain ⟨e, he, hec⟩ := List.mem_map.1 hc
        cases e with
        | token => cases hec
        | node c' =>
            cases hec
            exact ih c' he (hbelow c' he)
      by_cases hkind : n.kind = .yaml .entry
      · rw [foldTree_entry hkind]
        cases hfold : fold? { n with children := foldList n.children } with
        | none => exact hv
        | some e' => exact blank_fold hfold hv
      · rwa [foldTree_other hkind]

section
variable {marker : List Element} {front : Edge} {m : Node} (hmarker : MarkerLaid marker front)
  (hmapping : m.kind = .yaml .mapping) (hblank : m.Everywhere BlankMapping) (hinline : InlineTexts m)
include hmarker hmapping hblank hinline

theorem returns_document (hm : Shaped m) (lead : List Char) :
    Returns (documentNode marker [.node m] lead).print.toList ↔
      Returns (Node.printList .sequence marker).toList ∧ ReturningLeads m ∧ Returns lead := by
  have hprint : (Node.printList .sequence [.node m]).toList = written (pieces [] m) := by
    rw [← print_pieces hm hblank (by simp [hmapping]), printList_cons]
    simp [Node.printList, Element.print]
  rw [print_documentNode, hprint, returns_marker hmarker,
    returns_written fun p hp => hinline _ (List.mem_map_of_mem hp), ReturningLeads, views,
    List.forall_mem_map]
  rfl

theorem returns_foldTree (hm : WellWritten m) (hfirst : m.Everywhere FirstReturns) (lead : List Char) :
    Returns (foldTree (documentNode marker [.node m] lead)).print.toList ↔
      Returns (documentNode marker [.node m] lead).print.toList := by
  obtain ⟨hinline', hends⟩ := views_foldTree hm hinline hfirst
  obtain ⟨_, ⟨⟩, hkind, _⟩ := (coalesced_foldTree hm).node
  have hshaped := ((coalesced_foldTree hm).wellWritten (fun _ hc => by cases hc; exact hm) _ rfl).shaped
  rw [foldTree_documentNode hmarker, returns_document hmarker hmapping hblank hinline hm.shaped]
  exact (returns_document hmarker (hkind.trans hmapping) (blank_foldTree hblank) hinline' hshaped
    lead).trans (and_congr_right fun _ => and_congr_left fun _ => hends)

end

end Codemod.Recipes.Folding
