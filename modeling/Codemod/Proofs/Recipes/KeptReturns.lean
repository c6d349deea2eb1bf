import Codemod.Proofs.Recipes.FoldedDeletion
import Codemod.Proofs.Recipes.FoldedReturns

/-!
Lines that end with a carriage return behind a deletion. An entry that goes leaves the end of the line
in front of it only if a comment stands there. So the carriage return of a line is lost where an entry
goes right behind one that stays, and no comment ends that one's line.
-/

namespace Codemod.Recipes.Deletion

open Codemod.Tree Codemod.Yaml

variable {target : Target}

/-! ### Carried trivia -/

theorem returns_fromBreak {lead : List Char} (h : Returns lead) :
    fromBreak lead = [] ∨ ∃ behind, fromBreak lead = '\n' :: behind ∧ Returns behind := by
  obtain ⟨behind, hbreak, hlead⟩ | ⟨hnone, _⟩ := fromBreak_cases lead
  · rw [hlead, returns_break] at h
    exact .inr ⟨behind, hbreak, h.2.2⟩
  · exact .inl hnone

theorem returns_leadingLines {lead : String} (h : Returns lead.toList) :
    Returns (leadingLines lead) := by
  obtain ⟨front, behind, hlead, hlines⟩ | ⟨_, hnone⟩ := leadingLines_cases lead
  · rw [hlead, returns_break] at h
    rw [hlines, returns_break]
    exact ⟨h.1, h.2.1, rfl⟩
  · rw [hnone]
    rfl

theorem returns_withoutBlankLines {cs : List Char} (h : Returns cs) :
    Returns (withoutBlankLines cs) := by
  obtain ⟨blanks, hsplit, rfl | ⟨front, rfl⟩⟩ := exists_blankLines cs
  · rwa [hsplit, List.nil_append] at h
  · rw [hsplit, List.append_assoc, List.singleton_append, returns_break] at h
    exact h.2.2

/-- What was left ends its lines with carriage returns, also the one that goes on with the next
element. -/
def Carry.Sound : Carry → Prop
  | .leading lines => Returns lines
  | .tail comment => '\n' ∉ comment ∧ comment.getLast? = some '\r'

theorem Carry.Sound.onto {carry : Carry} (h : carry.Sound) {lead : String}
    (hlead : Returns lead.toList) : Returns (carry.onto lead).toList := by
  cases carry with
  | leading lines =>
      rw [Carry.onto, String.toList_ofList]
      refine Returns.append h (returns_withoutBlankLines ?_)
      obtain hnone | ⟨behind, hbreak, hbehind⟩ := returns_fromBreak hlead
      · rw [hnone]
        rfl
      · rwa [hbreak]
  | tail comment =>
      rw [Carry.onto, String.toList_ofList]
      obtain hnone | ⟨behind, hbreak, hbehind⟩ := returns_fromBreak hlead
      · rw [hnone, List.append_nil]
        exact returns_line h.1
      · rw [hbreak, returns_break]
        exact ⟨returns_line h.1, h.2, hbehind⟩

theorem returns_onto_nothing (lead : String) :
    Returns ((Carry.tail []).onto lead).toList ↔ '\n' ∉ lead.toList := by
  rw [Carry.onto, String.toList_ofList, List.nil_append]
  obtain ⟨behind, hbreak, hlead⟩ | ⟨hnone, hlead⟩ := fromBreak_cases lead.toList
  · rw [hbreak, ← List.nil_append ('\n' :: behind), returns_break]
    simp only [List.getLast?_nil, reduceCtorEq, false_and, and_false, false_iff, not_not]
    rw [hlead]
    simp
  · rw [hnone]
    exact iff_of_true rfl (hlead ▸ not_mem_firstLine _)

theorem sound_lineTail {lead : String} (h : Returns lead.toList) (hbreak : '\n' ∈ lead.toList)
    (hsign : '#' ∈ firstLine lead.toList) : (Carry.tail (lineTail lead)).Sound := by
  have htail : lineTail lead = firstLine lead.toList :=
    (lineTail_cases lead).resolve_right fun hnone => hnone.2 hsign
  refine ⟨not_mem_lineTail lead, ?_⟩
  obtain ⟨front, behind, hlead, hfront⟩ := List.eq_append_cons_of_mem hbreak
  rw [hlead, returns_break] at h
  rw [htail, hlead, firstLine_break, firstLine_of_not_mem hfront]
  exact h.2.1

/-! ### Rows of pieces -/

/-- The second piece goes right behind the first, which stays and is not around it, and no comment
ends the line in front of it. -/
def tears (target : Target) (p q : Piece) : Bool :=
  target.holds p.chain && !target.holds q.chain && decide (q.chain.length ≤ p.chain.length) &&
    !(firstLine q.lead.toList).contains '#'

/-- Such a piece goes, and a line feed comes behind it: in front of another piece that stays, or at
the end. -/
def torn (target : Target) (trailing : String) : List Piece → Bool
  | p :: q :: ps =>
      tears target p q && (ps.any (fun r => target.holds r.chain) || trailing.toList.contains '\n') ||
        torn target trailing (q :: ps)
  | _ => false

/-- All lines of a row end with carriage returns, with the trivia at its end. -/
def RowReturns (row : List Piece × Option Carry) (trailing : String) : Prop :=
  (∀ p ∈ row.1, Returns p.lead.toList) ∧ Returns (takesOver row.2 trailing).toList

section
variable {trailing : String} {ps : List Piece}

theorem returns_nothing (depth? : Option Nat) (hruled : Ruled False ps) :
    RowReturns (thin target depth? (some (.tail [])) ps) trailing ↔
      (ps.any fun r => target.holds r.chain) = false ∧ '\n' ∉ trailing.toList := by
  induction ps generalizing depth? with
  | nil =>
      rw [RowReturns, thin, takesOver, Option.map_some, Option.getD_some, returns_onto_nothing]
      simp
  | cons q ps ih =>
      obtain ⟨hline, _, hrest⟩ := hruled
      cases hholds : target.holds q.chain with
      | true =>
          rw [thin_keep hholds]
          refine iff_of_false (fun hall => ?_) (by simp [hholds])
          have hlead := hall.1 _ List.mem_cons_self
          exact (returns_onto_nothing q.lead).1 hlead (hline.resolve_left id)
      | false =>
          rw [thin_drop hholds, Option.getD_some, ih _ hrest, List.any_cons, hholds, Bool.false_or]

theorem torn_gone (h : ∀ p ∈ ps, target.holds p.chain = false) : torn target trailing ps = false := by
  induction ps with
  | nil => rfl
  | cons p ps ih =>
      obtain ⟨hp, hps⟩ := List.forall_mem_cons.1 h
      cases ps with
      | nil => rfl
      | cons q ps => rw [torn, ih hps, tears, hp]; rfl

theorem torn_cons {prev? : Option Piece} {q : Piece} (h : ∀ p ∈ prev?, tears target p q = false) :
    torn target trailing (prev?.toList ++ q :: ps) = torn target trailing (q :: ps) := by
  cases prev? with
  | none => rfl
  | some p =>
      rw [Option.toList_some, List.singleton_append, torn, h p rfl]
      rfl

theorem sound_carryOf {prev? : Option Piece} {q : Piece}
    (hstays : ∀ p ∈ prev?, target.holds p.chain = true) (hgone : target.holds q.chain = false)
    (hline : prev? = none ∨ '\n' ∈ q.lead.toList) (hq : Returns q.lead.toList)
    (h : ∀ p ∈ prev?, tears target p q = false) :
    (carryOf (prev?.map fun p => p.chain.length) q).Sound := by
  rw [carryOf]
  split_ifs with hlevel
  · obtain ⟨k, hk, hlevel⟩ := (Option.any_eq_true ..).1 hlevel
    obtain ⟨p, rfl, rfl⟩ := Option.map_eq_some_iff.1 hk
    refine sound_lineTail hq (hline.resolve_left (by simp)) ?_
    have htears := h p rfl
    rw [tears, hstays p rfl, hgone, hlevel] at htears
    simpa using htears
  · exact returns_leadingLines hq

theorem carryOf_tears {p q : Piece} (h : tears target p q = true) :
    carryOf (some p.chain.length) q = .tail [] := by
  simp only [tears, Bool.and_eq_true, Bool.not_eq_true', List.contains_eq_mem,
    decide_eq_false_iff_not] at h
  obtain ⟨⟨_, hlevel⟩, hsign⟩ := h
  rw [carryOf, if_pos (by simpa using hlevel)]
  exact congrArg _ ((lineTail_cases q.lead).elim (fun hline => if_neg (by simpa [firstLine] using hsign))
    fun hnone => hnone.1)

theorem returns_thin {prev? : Option Piece} {carry? : Option Carry}
    (hstays : carry? = none → ∀ p ∈ prev?, target.holds p.chain = true)
    (hleft : ∀ carry ∈ carry?, carry.Sound ∧ ∃ p, prev? = some p ∧ target.holds p.chain = false)
    (hruled : Ruled (prev? = none) ps) (hps : ∀ p ∈ ps, Returns p.lead.toList)
    (htrailing : Returns trailing.toList) :
    RowReturns (thin target (prev?.map fun p => p.chain.length) carry? ps) trailing ↔
      torn target trailing (prev?.toList ++ ps) = false := by
  have honto : ∀ {lead : String}, Returns lead.toList → Returns (takesOver carry? lead).toList := by
    intro lead hlead
    cases hcarry : carry? with
    | none => exact hlead
    | some carry => exact (hleft carry hcarry).1.onto hlead
  induction ps generalizing prev? carry? with
  | nil =>
      refine iff_of_true ⟨nofun, honto htrailing⟩ ?_
      cases prev? <;> rfl
  | cons q ps ih =>
      obtain ⟨hq, hps⟩ := List.forall_mem_cons.1 hps
      obtain ⟨hline, _, hrest⟩ := hruled
      have hrest' : Ruled (some q = none) ps := hrest.mono False.elim
      cases hholds : target.holds q.chain with
      | true =>
          have hnext := @ih (some q) none (fun _ p hp => by cases hp; exact hholds) nofun hrest' hps id
          rw [thin_keep hholds, torn_cons (fun p _ => by simp [tears, hholds])]
          refine Iff.trans ?_ hnext
          simp [RowReturns, honto hq]
      | false =>
          have hnext : ∀ {carry : Carry}, carry.Sound →
              (RowReturns (thin target (some q.chain.length) (some carry) ps) trailing ↔
                torn target trailing (q :: ps) = false) := fun {carry} hsound =>
            @ih (some q) (some carry) nofun (fun c hc => by cases hc; exact ⟨hsound, q, rfl, hholds⟩)
              hrest' hps hsound.onto
          rw [thin_drop hholds]
          cases hcarry : carry? with
          | some carry =>
              obtain ⟨hsound, p, rfl, hgone⟩ := hleft carry hcarry
              rw [torn_cons (fun p' hp' => by cases hp'; simp [tears, hgone])]
              exact hnext hsound
          | none =>
              by_cases htears : ∀ p ∈ prev?, tears target p q = false
              · rw [torn_cons htears]
                exact hnext (sound_carryOf (hstays hcarry) hholds hline hq htears)
              · simp only [not_forall, Bool.not_eq_false] at htears
                obtain ⟨p, rfl, htears⟩ := htears
                rw [Option.map_some, carryOf_tears htears, Option.getD_none, returns_nothing _ hrest,
                  Option.toList_some, List.singleton_append, torn, htears]
                cases hany : ps.any fun r => target.holds r.chain with
                | true => simp
                | false =>
                    have hgone : ∀ r ∈ q :: ps, target.holds r.chain = false :=
                      List.forall_mem_cons.2 ⟨hholds, by simpa using hany⟩
                    simp [torn_gone hgone]

end

/-! ### First entries -/

theorem returns_entry {e : Node} (h : Shaped e) (hkind : e.kind = .yaml .entry)
    (hleads : Folding.ReturningLeads e) : Returns e.lead.toList := by
  obtain ⟨value, key, colon, hes, _⟩ := h.entry_children hkind
  rw [Folding.ReturningLeads, Folding.views_entry hkind hes] at hleads
  exact hleads _ List.mem_cons_self

theorem mem_cutEntries {around : List Node} {es : List Element} (honly : EntriesOnly es) {p : Progress}
    {c : Node} (hc : Element.node c ∈ (cutEntries target around p es).kept) :
    Element.node c ∈ p.kept ∨
      ∃ e lead, Element.node e ∈ es ∧ c = { (cut target around e).1 with lead } := by
  induction es generalizing p with
  | nil => exact .inl hc
  | cons e es ih =>
      obtain ⟨⟨e, rfl, _⟩, hrest⟩ := List.forall_mem_cons.1 honly
      have hlater : ∀ {P : Prop}, (∃ e' lead, Element.node e' ∈ es ∧
          c = { (cut target around e').1 with lead }) → P ∨ ∃ e' lead, Element.node e' ∈ .node e :: es ∧
            c = { (cut target around e').1 with lead } := by
        rintro P ⟨e', lead, he', hc⟩
        exact .inr ⟨e', lead, List.mem_cons_of_mem _ he', hc⟩
      by_cases hnil : target.left (leafChains around e) = []
      · rw [cutEntries_gone hnil] at hc
        exact (ih hrest hc).elim .inl hlater
      · rw [cutEntries_stays hnil] at hc
        rcases ih hrest hc with hkept | hlast
        · rw [Progress.keep_takesOver, List.mem_append, List.mem_singleton] at hkept
          refine hkept.imp id fun hc => ?_
          cases hc
          exact ⟨e, _, List.mem_cons_self, rfl⟩
        · exact hlater hlast

theorem returns_onlyChild {around : List Node} {n inner : Node} (hn : Shaped n)
    (hkind : n.kind = .yaml .mapping) (hleads : Folding.ReturningLeads n)
    (hinner : (cut target around n).1.childNodes = [inner]) : Returns inner.lead.toList := by
  obtain ⟨hne, honly, hshaped⟩ := mapping_children hkind hn
  have hreturns : ∀ c, Element.node c ∈ n.children → Returns c.lead.toList := fun c hc => by
    obtain ⟨_, ⟨⟩, hentry⟩ := honly _ hc
    rw [Folding.ReturningLeads, Folding.views_mapping hkind, List.forall_mem_flatMap] at hleads
    exact returns_entry (hshaped c hc) hentry (hleads c (mem_childNodes.2 hc))
  rw [cut_mapping hkind, Node.childNodes] at hinner
  obtain ⟨e, es, hes⟩ := List.exists_cons_of_ne_nil hne
  rw [hes] at honly hreturns hinner
  obtain ⟨⟨e, rfl, _⟩, _⟩ := List.forall_mem_cons.1 honly
  obtain ⟨hkept, _⟩ | ⟨e', rest, hkept, hlead⟩ := @cutEntries_head target around e es honly
  · rw [hkept] at hinner
    cases hinner
  · rw [hkept] at hinner
    obtain rfl : e' = inner := by
      revert hinner
      rw [List.filterMap_cons]
      cases rest.filterMap Element.node? <;> simp [Element.node?]
    have he := hreturns e List.mem_cons_self
    rcases hlead with hlead | ⟨c, hc, hlead⟩
    · rwa [hlead]
    · have hsound : (Carry.leading (leadingLines e.lead)).Sound := returns_leadingLines he
      rw [hlead]
      exact hsound.onto (hreturns c (List.mem_cons_of_mem _ hc))

theorem firstReturns_cut {n : Node} (h : Shaped n) (hleads : Folding.ReturningLeads n)
    (around : List Node) : (cut target around n).1.Everywhere Folding.FirstReturns := by
  have hnone : ∀ {m : Node}, m.kind ≠ .yaml .entry → Folding.FirstReturns m := by
    intro m hkind inner hinner
    rw [Folding.inner?, entryValue?, if_neg hkind] at hinner
    cases hinner
  induction h generalizing around with
  | scalar hkind hes =>
      rw [cut_scalar hkind]
      exact everywhere_iff.2 ⟨hnone (by simp [hkind]), by simp [hes]⟩
  | @entry n value key colon hkind hes _ hisValue hvalue ih =>
      rw [Folding.ReturningLeads, Folding.views_entry hkind hes, List.forall_mem_cons] at hleads
      rw [cut_entry hkind hes]
      refine everywhere_iff.2 ⟨fun inner hinner => ?_, fun c hc => ?_⟩
      · obtain ⟨value', hvalue', hnodes⟩ := Folding.childNodes_inner hinner
        rw [@entryValue_entry { n with children := _ } _ _ _ hkind rfl, Option.some.injEq] at hvalue'
        subst hvalue'
        rcases hisValue with hscalar | hmapping
        · rw [cut_scalar hscalar, Folding.childNodes_scalar hvalue hscalar] at hnodes
          cases hnodes
        · exact returns_onlyChild hvalue hmapping hleads.2 hnodes
      · obtain rfl : c = (cut target (around ++ [n]) value).1 := by simpa using hc
        exact ih hleads.2 (around ++ [n])
  | @mapping n hkind hne honly hshaped ih =>
      rw [Folding.ReturningLeads, Folding.views_mapping hkind, List.forall_mem_flatMap] at hleads
      rw [cut_mapping hkind]
      refine everywhere_iff.2 ⟨hnone (by simp [hkind]), fun c hc => ?_⟩
      obtain ⟨e, lead, he, rfl⟩ := (mem_cutEntries honly hc).resolve_left (by simp)
      obtain ⟨hfirst, hbelow⟩ := everywhere_iff.1 (ih e he (hleads e (mem_childNodes.2 he)) around)
      exact everywhere_iff.2 ⟨hfirst, hbelow⟩

/-! ### Documents -/

/-- The trivia at the end of a document. -/
def trailing (d : Node) : String :=
  ((d.children.getLast?.bind Element.token?).map fun t => t.lead).getD ""

theorem returns_onlyComments {lead : String} (h : Returns lead.toList) :
    Returns (onlyComments lead).toList := by
  rw [onlyComments]
  split_ifs
  · rw [String.toList_ofList]
    exact returns_withoutBlankLines h
  · rfl

theorem thin_texts {depth? : Option Nat} {carry? : Option Carry} {ps : List Piece} {P : List Char → Prop}
    (h : ∀ p ∈ ps, P p.text) : ∀ p ∈ (thin target depth? carry? ps).1, P p.text := by
  induction ps generalizing depth? carry? with
  | nil => nofun
  | cons q ps ih =>
      obtain ⟨hq, hps⟩ := List.forall_mem_cons.1 h
      cases hholds : target.holds q.chain with
      | true =>
          rw [thin_keep hholds]
          exact List.forall_mem_cons.2 ⟨hq, ih hps⟩
      | false =>
          rw [thin_drop hholds]
          exact ih hps

theorem pieces_documentNode {marker es : List Element} {lead : List Char} {front : Edge}
    (hmarker : MarkerLaid marker front) :
    pieces [] (documentNode marker [.node (mappingNode es)] lead) = piecesList [] es := by
  cases hmarker <;>
    simp [documentNode, mappingNode, pieces, piecesList, piecesElement]

theorem trailing_documentNode (marker mapping : List Element) (lead : List Char) :
    trailing (documentNode marker mapping lead) = String.ofList lead := by
  simp [trailing, documentNode, Element.token?]

theorem tokens_bare {marker : List Element} {front : Edge} (hmarker : MarkerLaid marker front)
    (lead : List Char) : ∀ e ∈ (documentNode marker [] lead).children, ∃ t, e = .token t := by
  intro e he
  simp only [documentNode, List.append_nil, List.mem_append, List.mem_singleton] at he
  exact he.elim (fun he => (hmarker.tokens e he).imp fun _ ht => ht.1) fun he => ⟨_, he⟩

theorem kept_mapping {marker : List Element} {m : Node} {lead : List Char}
    (h : DocumentShaped (documentNode marker [.node m] lead))
    (hblank : (documentNode marker [.node m] lead).Everywhere BlankMapping) :
    Shaped m ∧ m.Everywhere BlankMapping := by
  have hmem : Element.node m ∈ (documentNode marker [.node m] lead).children := by
    simp [documentNode]
  exact ⟨(h.child hmem).2, (everywhere_iff.1 hblank).2 m hmem⟩

theorem inlineTexts_thin {m : Node} {depth? : Option Nat} {carry? : Option Carry} {ps : List Piece}
    (hviews : Folding.views m = (thin target depth? carry? ps).1.map Piece.view)
    (h : ∀ p ∈ ps, Inline p.text) : Folding.InlineTexts m := by
  rw [Folding.InlineTexts, hviews, List.forall_mem_map]
  exact thin_texts h

/-! ### Deletion and folding -/

section
variable {marker es : List Element} {lead : List Char} {front : Edge}

theorem deleted_mapping (target : Target) (hmarker : MarkerLaid marker front)
    (hd : DocumentShaped (documentNode marker [.node (mappingNode es)] lead)) :
    let row := thin target none none (piecesList [] es)
    let m := (cut target [] (mappingNode es)).1
    let behind := takesOver row.2 (String.ofList lead)
    let d' := deleted target (documentNode marker [.node (mappingNode es)] lead)
    m.kind = .yaml .mapping ∧ Folding.views m = row.1.map Piece.view ∧
      (row.1 = [] ∧ d' = documentNode [] [] (onlyComments behind).toList ∨
        d' = documentNode marker [.node m] behind.toList) := by
  intro row m behind d'
  have hm := (hd.child (c := mappingNode es) (by simp [documentNode])).2
  obtain ⟨hview, horphan⟩ : ValueCut target [] none (mappingNode es) :=
    (cut_pieces hm).2 (.inr rfl) (by simp) (.inl rfl)
  rw [show pieces [] (mappingNode es) = piecesList [] es from pieces_mapping rfl []] at hview horphan
  have hkind : m.kind = .yaml .mapping := kind_cut [] _
  have hdeleted := deleted_eq hd (m := mappingNode es) rfl hmarker.tokens rfl target
  rw [horphan, withMapping] at hdeleted
  simp only at hdeleted
  refine ⟨hkind, hview, ?_⟩
  split_ifs at hdeleted with hempty
  · refine .inl ⟨?_, hdeleted.trans (by simp [documentNode, behind, row])⟩
    rw [pieces_mapping hkind, piecesList_eq, show List.filterMap _ _ = [] from
      List.isEmpty_iff.1 hempty] at hview
    exact List.map_eq_nil_iff.1 hview.symm
  · exact .inr (hdeleted.trans (by simp [documentNode, behind, row, m]))

/-- Texts that stay in their lines, behind trivia that ends its lines with carriage returns. -/
structure Returning (marker es : List Element) (lead : List Char) : Prop where
  texts : ∀ p ∈ piecesList [] es, Inline p.text
  start : Returns (Node.printList .sequence marker).toList
  leads : ∀ p ∈ piecesList [] es, Returns p.lead.toList
  behind : Returns lead

theorem returning_of_laid {column : Nat} {last : Edge} (hmarker : MarkerLaid marker front)
    (hlaid : Laid front column es last)
    (hlines : InLine (documentNode marker [.node (mappingNode es)] lead).leaves)
    (hreturns : Returns (documentNode marker [.node (mappingNode es)] lead).print.toList) :
    Returning marker es lead := by
  have htexts := hlaid.inline (fun t ht => hlines t (by
    rw [documentNode, Node.leaves, mem_leavesList]
    exact .inr ⟨mappingNode es, by simp, ht⟩)) []
  rw [print_laidDocument hlaid, returns_marker hmarker, returns_written htexts] at hreturns
  exact ⟨htexts, hreturns.1, hreturns.2.1, hreturns.2.2⟩

end

theorem deleted_returns (target : Target) {d : Node} (hd : DocumentShaped d) (h : DocumentLaid d)
    (hlines : InLine d.leaves) (hreturns : Returns d.print.toList) :
    Returns (deleted target d).print.toList ↔ torn target (trailing d) (pieces [] d) = false := by
  have hblank := blank_of_documentLaid (deleted_laid target hd h)
  have hshaped : DocumentShaped (deleted target d) := (walk_deletes target hd).shaped
  obtain @⟨marker, mapping, front, last, lead, hmarker, hmapping, hend⟩ := h
  cases hmapping with
  | none =>
      rw [deleted_bare target rfl (tokens_bare hmarker lead)]
      refine iff_of_true hreturns ?_
      cases hmarker <;> simp [documentNode, pieces, piecesList, piecesElement, torn]
  | @some _ column es hne hlaid =>
      obtain ⟨htexts, hstart, hleads, hlead⟩ := returning_of_laid hmarker hlaid hlines hreturns
      have hruled : Ruled ((none : Option Piece) = none) (piecesList [] es) :=
        (ruled_of_laid hlaid []).mono fun _ => rfl
      have hrow := @returns_thin target (String.ofList lead) (piecesList [] es) none none
        (by simp) (by simp) hruled hleads (by simpa using hlead)
      rw [pieces_documentNode hmarker, trailing_documentNode]
      refine Iff.trans ?_ hrow
      obtain ⟨hkind, hviews, ⟨hnil, hemptied⟩ | hkept⟩ := deleted_mapping target hmarker hd
      · -- Nothing is left of a document that has lost its entries but its trivia.
        have hgone : ∀ p ∈ piecesList [] es, target.holds p.chain = false := fun p hp => by
          by_contra hholds
          exact thin_ne_nil hp (by simpa using hholds) hnil
        have hall := hrow.2 (torn_gone hgone)
        refine iff_of_true ?_ hall
        rw [hemptied, print_documentNode]
        simpa [Node.printList] using returns_onlyComments hall.2
      · rw [hkept] at hblank hshaped ⊢
        obtain ⟨hm, hblank⟩ := kept_mapping hshaped hblank
        rw [Folding.returns_document hmarker hkind hblank (inlineTexts_thin hviews htexts) hm,
          Folding.ReturningLeads, hviews, List.forall_mem_map]
        exact and_iff_right hstart

theorem folded_returns (target : Target) {d : Node} (hd : DocumentShaped d) (h : DocumentLaid d)
    (hwritten : d.Everywhere Written) (hlines : InLine d.leaves) (hreturns : Returns d.print.toList) :
    Returns (Folding.folded (deleted target d)).print.toList ↔
      Returns (deleted target d).print.toList := by
  have hblank := blank_of_documentLaid (deleted_laid target hd h)
  have hshaped : DocumentShaped (deleted target d) := (walk_deletes target hd).shaped
  have hwritten := walk_written target hd hwritten
  rw [Folding.folded_eq hshaped.kind]
  obtain @⟨marker, mapping, front, last, lead, hmarker, hmapping, hend⟩ := h
  cases hmapping with
  | none =>
      rw [deleted_bare target rfl (tokens_bare hmarker lead), Folding.foldTree_documentNode hmarker]
      rfl
  | @some _ column es hne hlaid =>
      obtain ⟨htexts, _, hleads, _⟩ := returning_of_laid hmarker hlaid hlines hreturns
      obtain ⟨hkind, hviews, ⟨_, hemptied⟩ | hkept⟩ := deleted_mapping target hmarker hd
      · rw [hemptied, Folding.foldTree_documentNode .none]
        rfl
      · rw [hkept] at hblank hshaped hwritten ⊢
        obtain ⟨hm, hblank⟩ := kept_mapping hshaped hblank
        have hmapping := (hd.child (c := mappingNode es) (by simp [documentNode])).2
        have hreturning : Folding.ReturningLeads (mappingNode es) := by
          rw [Folding.ReturningLeads, Folding.views, List.forall_mem_map,
            pieces_mapping (n := mappingNode es) rfl]
          exact hleads
        refine Folding.returns_foldTree hmarker hkind hblank (inlineTexts_thin hviews htexts)
          ⟨hm, (everywhere_iff.1 hwritten).2 _ (by simp [documentNode])⟩
          (firstReturns_cut hmapping hreturning []) _

/-- Where the lines of a source end with carriage returns, they do so behind a deletion, also one with
folding, unless an entry goes right behind one that stays, no comment ends that one's line, and a line
feed comes behind: its line loses the carriage return. -/
theorem deleteProperty_returns {source key : String} {d : Node} {path : KeyPath}
    (hdocument : parseDocument source = .ok d) (hreturns : Returns source.toList)
    (hpath : KeyPath.parse key = .ok path) (expected : Option Recipe.OptionValue)
    (coalesce : Option Bool) :
    let result := (deleteProperty (some key) expected coalesce).apply ⟨d, []⟩
    Returns result.root.print.toList ↔ torn ⟨path, expected⟩ (trailing d) (pieces [] d) = false := by
  intro result
  have hd := shaped_of_parseDocument hdocument
  have hlines := inLine_of_returns hdocument hreturns
  have hlaid := laid_of_parseDocument hdocument hlines
  rw [← print_of_parseDocument hdocument] at hreturns
  refine Iff.trans ?_ (deleted_returns _ hd hlaid hlines hreturns)
  rw [show result.root = _ from Folding.deleteProperty_root hpath expected coalesce d]
  split_ifs with hfolds
  · exact folded_returns _ hd hlaid (written_of_parseDocument hdocument) hlines hreturns
  · exact Iff.rfl

/-- Behind a comment the carriage return of its line is kept, and so are those behind joined keys. -/
theorem deleteProperty_returns_comment :
    let source := "a: 1 # one\r\nb: 2 # two\r\nc:\r\n  d:\r\n    e: 3\r\n    f: 4\r\n"
    let recipe := deleteProperty (some "b") none (some true)
    ∃ d, parseDocument source = .ok d ∧ Returns source.toList ∧
      KeyPath.parse "b" = .ok ⟨["b"], by simp⟩ ∧ Returns (recipe.apply ⟨d, []⟩).root.print.toList := by
  intro source recipe
  have hpath : KeyPath.parse "b" = .ok ⟨["b"], by simp⟩ := by decide +kernel
  have hreturns : Returns source.toList := by decide +kernel
  have hruns : (parseDocument source).toOption.map (fun d =>
      torn ⟨⟨["b"], by simp⟩, none⟩ (trailing d) (pieces [] d)) = some false := by
    decide +kernel
  cases hdocument : parseDocument source with
  | error e =>
      rw [hdocument] at hruns
      cases hruns
  | ok d =>
      rw [hdocument] at hruns
      exact ⟨d, rfl, hreturns, hpath,
        (deleteProperty_returns hdocument hreturns hpath none (some true)).2 (Option.some.inj hruns)⟩

/-- The end of a line goes with the entry behind it. -/
example : (parseDocument "a: 1\r\nb: 2\r\nc: 3\r\n").toOption.map (fun d =>
    ((deleteProperty (some "b") none none).apply ⟨d, []⟩).root.print) = some "a: 1\nc: 3\r\n" := by
  decide +kernel

end Codemod.Recipes.Deletion
