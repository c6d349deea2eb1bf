import Codemod.Proofs.Recipes.Cutting
import Codemod.Proofs.Recipes.KeptLines

/-!
The pieces of a document behind a deletion as a function of the row of its pieces. Whether the first
of some pieces that go leaves whole lines or the end of a line hangs on the piece in front of it: it
is the first of its mapping exactly if that one is no deeper than the mapping.
-/

namespace Codemod.Recipes.Deletion

open Codemod.Tree Codemod.Yaml

/-- What a piece that goes leaves, behind a piece that stays and has a chain of this length. -/
def carryOf (depth? : Option Nat) (p : Piece) : Carry :=
  if depth?.any (p.chain.length ≤ ·) then .tail (lineTail p.lead) else .leading (leadingLines p.lead)

/-- The pieces that stay, each with what was left to it, and what is left behind the last. -/
def thin (target : Target) : Option Nat → Option Carry → List Piece → List Piece × Option Carry
  | _, carry?, [] => ([], carry?)
  | depth?, carry?, p :: ps =>
      if target.holds p.chain then
        let (kept, left?) := thin target (some p.chain.length) none ps
        ({ p with lead := takesOver carry? p.lead } :: kept, left?)
      else thin target (some p.chain.length) (some (carry?.getD (carryOf depth? p))) ps

/-- The length of the chain of the last piece. -/
def depthBehind (depth? : Option Nat) (ps : List Piece) : Option Nat :=
  (ps.getLast?.map fun p => p.chain.length).or depth?

/-- What is written for a piece. -/
def Piece.view (p : Piece) : String × List Char :=
  (p.lead, p.text)

variable {target : Target} {around : List Node} {depth? : Option Nat} {carry? : Option Carry}

/-! ### Rows of pieces -/

section
variable {p : Piece} {ps : List Piece}

theorem thin_keep (h : target.holds p.chain = true) : thin target depth? carry? (p :: ps) =
    ({ p with lead := takesOver carry? p.lead } :: (thin target (some p.chain.length) none ps).1,
      (thin target (some p.chain.length) none ps).2) := by
  rw [thin, if_pos h]

theorem thin_drop (h : target.holds p.chain = false) : thin target depth? carry? (p :: ps) =
    thin target (some p.chain.length) (some (carry?.getD (carryOf depth? p))) ps := by
  rw [thin, if_neg (by simp [h])]

theorem depthBehind_cons (depth? : Option Nat) (p : Piece) (ps : List Piece) :
    depthBehind depth? (p :: ps) = depthBehind (some p.chain.length) ps := by
  rw [depthBehind, depthBehind, List.getLast?_cons]
  cases ps.getLast? <;> rfl

end

theorem thin_append (depth? : Option Nat) (carry? : Option Carry) (ps qs : List Piece) :
    thin target depth? carry? (ps ++ qs) =
      ((thin target depth? carry? ps).1 ++
          (thin target (depthBehind depth? ps) (thin target depth? carry? ps).2 qs).1,
        (thin target (depthBehind depth? ps) (thin target depth? carry? ps).2 qs).2) := by
  induction ps generalizing depth? carry? with
  | nil => rfl
  | cons p ps ih =>
      rw [List.cons_append, depthBehind_cons]
      cases hholds : target.holds p.chain with
      | true => rw [thin_keep hholds, thin_keep hholds, ih, List.cons_append]
      | false => rw [thin_drop hholds, thin_drop hholds, ih]

theorem thin_gone {p : Piece} {ps : List Piece} (h : ∀ q ∈ p :: ps, target.holds q.chain = false) :
    thin target depth? carry? (p :: ps) = ([], some (carry?.getD (carryOf depth? p))) := by
  have hrest : ∀ (carry : Carry) {depth? : Option Nat} {qs : List Piece},
      (∀ q ∈ qs, target.holds q.chain = false) →
        thin target depth? (some carry) qs = ([], some carry) := by
    intro carry depth? qs hqs
    induction qs generalizing depth? with
    | nil => rfl
    | cons q qs ih =>
        obtain ⟨hq, hqs⟩ := List.forall_mem_cons.1 hqs
        rw [thin_drop hq, Option.getD_some, ih hqs]
  obtain ⟨hp, hps⟩ := List.forall_mem_cons.1 h
  rw [thin_drop hp, hrest _ hps]

theorem thin_ne_nil {ps : List Piece} {p : Piece} (hp : p ∈ ps) (hholds : target.holds p.chain = true) :
    (thin target depth? carry? ps).1 ≠ [] := by
  induction ps generalizing depth? carry? with
  | nil => cases hp
  | cons q ps ih =>
      cases hq : target.holds q.chain with
      | true => simp [thin_keep hq]
      | false =>
          rw [thin_drop hq]
          refine ih ((List.mem_cons.1 hp).resolve_left ?_)
          rintro rfl
          simp [hholds] at hq

/-! ### The pieces of a node -/

theorem view_pieces (around around' : List Node) (n : Node) :
    (pieces around n).map Piece.view = (pieces around' n).map Piece.view := by
  have hview : ∀ around, (pieces around n).map Piece.view = (pieces [] n).map Piece.view := by
    intro around
    rw [← List.append_nil around, pieces_eq_map, List.map_map]
    rfl
  rw [hview around, hview around']

theorem length_chain_pieces {n : Node} {p : Piece} (h : p ∈ pieces around n) :
    around.length < p.chain.length := by
  rw [← List.append_nil around, pieces_eq_map] at h
  obtain ⟨q, hq, rfl⟩ := List.mem_map.1 h
  have hne := entryChains_ne_nil (mem_entryChains_of_piece hq)
  simpa using List.length_pos_of_ne_nil hne

theorem piecesList_append (around : List Node) (es fs : List Element) :
    piecesList around (es ++ fs) = piecesList around es ++ piecesList around fs := by
  induction es with
  | nil => rfl
  | cons e es ih => rw [List.cons_append, piecesList, piecesList, ih, List.append_assoc]

theorem kind_cut (around : List Node) (n : Node) : (cut target around n).1.kind = n.kind := by
  obtain ⟨kind, lead, children, markers, type?⟩ := n
  rw [cut]
  split_ifs <;> rfl

/-- The pieces of what stays of a value are those that stay of its pieces, and it leaves what these
leave. -/
def ValueCut (target : Target) (around : List Node) (depth? : Option Nat) (n : Node) : Prop :=
  let row := thin target depth? none (pieces around n)
  (pieces around (cut target around n).1).map Piece.view = row.1.map Piece.view ∧
    (cut target around n).2 = row.2

/-- So it is with an entry, which leaves no whole lines. -/
structure EntryCut (target : Target) (around : List Node) (e : Node) (text : List Char)
    (below : List Piece) : Prop where
  pieces_eq : pieces around e = ⟨around ++ [e], e.lead, text⟩ :: below
  kept : ∀ lead, (pieces around { (cut target around e).1 with lead }).map Piece.view =
    (lead, text) :: (thin target (some (around.length + 1)) none below).1.map Piece.view
  orphan : (cut target around e).2 = (thin target (some (around.length + 1)) none below).2
  tail : ∀ lines, (cut target around e).2 ≠ some (.leading lines)

/-- How far the entries of a mapping have been gone through where the last piece has a chain of this
length: lines are left in front of the first entry that stays only. -/
structure Progress.Behind (p : Progress) (around : List Node) (depth? : Option Nat) : Prop where
  first : p.carry? = none → p.kept = [] → ∀ k ∈ depth?, k ≤ around.length
  later : p.carry? = none → p.kept ≠ [] → ∃ k ∈ depth?, around.length < k
  lines : ∀ lines, p.carry? = some (.leading lines) → p.kept = []

theorem carryOf_first {e : Node} {lead : String} {text : List Char}
    (h : ∀ k ∈ depth?, k ≤ around.length) :
    carryOf depth? ⟨around ++ [e], lead, text⟩ = .leading (leadingLines lead) := by
  refine if_neg ?_
  rw [Bool.not_eq_true, Option.any_eq_false]
  intro k hk
  have := h k hk
  simp
  omega

theorem carryOf_later {e : Node} {lead : String} {text : List Char}
    (h : ∃ k ∈ depth?, around.length < k) :
    carryOf depth? ⟨around ++ [e], lead, text⟩ = .tail (lineTail lead) := by
  obtain ⟨k, hk, hlt⟩ := h
  refine if_pos ((Option.any_eq_true ..).2 ⟨k, hk, ?_⟩)
  simp
  omega

section
variable {p : Progress} (hp : p.Behind around depth?) (e : Node)
include hp

theorem Progress.Behind.delete_carry (text : List Char) :
    (p.delete e).carry? = some (p.carry?.getD (carryOf depth? ⟨around ++ [e], e.lead, text⟩)) := by
  cases hcarry : p.carry? with
  | some carry => simp [Progress.delete, hcarry]
  | none =>
      by_cases hkept : p.kept = []
      · rw [carryOf_first (hp.first hcarry hkept)]
        simp [Progress.delete, hcarry, hkept]
      · rw [carryOf_later (hp.later hcarry hkept)]
        simp [Progress.delete, hcarry, hkept]

theorem Progress.Behind.delete (depth?' : Option Nat) : (p.delete e).Behind around depth?' := by
  refine ⟨by simp [Progress.delete], by simp [Progress.delete], fun lines hlines => ?_⟩
  rw [hp.delete_carry e [], Option.some.injEq] at hlines
  show p.kept = []
  by_contra hkept
  cases hcarry : p.carry? with
  | some carry =>
      rw [hcarry] at hlines
      exact hkept (hp.lines lines (hcarry.trans (congrArg some hlines)))
  | none =>
      rw [hcarry, Option.getD_none, carryOf_later (hp.later hcarry hkept)] at hlines
      cases hlines

end

theorem cutEntries_pieces {es : List Element} (honly : EntriesOnly es)
    (hes : ∀ e, Element.node e ∈ es → Shaped e ∧
      (target.left (leafChains around e) ≠ [] → ∃ text below, EntryCut target around e text below))
    {p : Progress} (hp : p.Behind around depth?) :
    let q := cutEntries target around p es
    let row := thin target depth? p.carry? (piecesList around es)
    (piecesList around q.kept).map Piece.view =
        (piecesList around p.kept).map Piece.view ++ row.1.map Piece.view ∧
      q.carry? = row.2 ∧ ∀ lines, q.carry? = some (.leading lines) → q.kept = [] := by
  induction es generalizing p depth? with
  | nil => exact ⟨by simp [cutEntries, thin, piecesList], rfl, hp.lines⟩
  | cons e es ih =>
      obtain ⟨⟨e, rfl, hkind⟩, honly'⟩ := List.forall_mem_cons.1 honly
      obtain ⟨hshaped, hcut⟩ := hes e List.mem_cons_self
      have hrest := fun c hc => hes c (List.mem_cons_of_mem _ hc)
      rw [piecesList, piecesElement, thin_append]
      by_cases hnil : target.left (leafChains around e) = []
      · have hgone := holds_eq_false hshaped hnil
        obtain ⟨value, key, colon, hchildren, _⟩ := hshaped.entry_children hkind
        rw [pieces_entry hkind hchildren] at hgone ⊢
        rw [cutEntries_gone hnil, thin_gone hgone, ← hp.delete_carry e (ownText e.children)]
        exact ih honly' hrest (hp.delete e _)
      · obtain ⟨text, below, hcut⟩ := hcut hnil
        have hholds : target.holds (around ++ [e]) = true := by
          obtain ⟨value, key, colon, hchildren, _⟩ := hshaped.entry_children hkind
          rw [Target.holds, leavesUnder_entry hchildren, ← leafChains_entry hkind hchildren]
          simpa using hnil
        have hdepth : ∃ k ∈ depthBehind depth? (pieces around e), around.length < k := by
          have hlast := List.getLast?_eq_some_getLast (l := pieces around e) (by simp [hcut.pieces_eq])
          rw [depthBehind, hlast]
          exact ⟨_, rfl, length_chain_pieces (List.getLast_mem _)⟩
        have hnext : (p.keep (cut target around e).1 (cut target around e).2).Behind around
            (depthBehind depth? (pieces around e)) := by
          rw [Progress.keep_takesOver]
          exact ⟨fun _ hkept => by simp at hkept, fun _ _ => hdepth,
            fun lines hlines => absurd hlines (hcut.tail lines)⟩
        have hthin : thin target depth? p.carry? (pieces around e) =
            (⟨around ++ [e], takesOver p.carry? e.lead, text⟩ ::
              (thin target (some (around.length + 1)) none below).1, (cut target around e).2) := by
          rw [hcut.pieces_eq, thin_keep (p := ⟨around ++ [e], e.lead, text⟩) hholds, hcut.orphan]
          simp
        obtain ⟨hkept, hcarry, hlines⟩ := ih honly' hrest hnext
        rw [cutEntries_stays hnil, hthin]
        refine ⟨hkept.trans ?_, hcarry, hlines⟩
        have hview := hcut.kept (takesOver p.carry? (cut target around e).1.lead)
        rw [Progress.keep_takesOver, piecesList_append, List.map_append,
          show piecesList around [_] = pieces around _ from List.append_nil _, hview, lead_cut]
        simp [Piece.view]

/-- A scalar that stays in a mapping stays under one of its entries. -/
theorem exists_holds {n : Node} (hn : Shaped n) (hkind : n.kind = .yaml .mapping)
    (hleft : target.left (leafChains around n) ≠ []) :
    ∃ p ∈ pieces around n, target.holds p.chain = true := by
  obtain ⟨leaf, hleaf⟩ := List.exists_mem_of_ne_nil _ hleft
  obtain ⟨hleaf, hclear⟩ := List.mem_filter.1 hleaf
  rw [leafChains_inner (by simp [hkind]) (by simp [hkind]), mem_leafChainsList] at hleaf
  obtain ⟨e, he, hleaf⟩ := hleaf
  obtain ⟨_, honly, hshaped⟩ := mapping_children hkind hn
  obtain ⟨_, ⟨⟩, hentry⟩ := honly _ he
  obtain ⟨value, key, colon, hchildren, _⟩ := (hshaped e he).entry_children hentry
  refine ⟨⟨around ++ [e], e.lead, ownText e.children⟩, ?_, ?_⟩
  · rw [pieces_mapping hkind, piecesList_eq, List.mem_flatMap]
    exact ⟨e, mem_childNodes.2 he, by rw [pieces_entry hentry hchildren]; exact List.mem_cons_self⟩
  · rw [Target.holds, leavesUnder_entry hchildren, ← leafChains_entry hentry hchildren]
    have hne : target.left (leafChains around e) ≠ [] :=
      List.ne_nil_of_mem (List.mem_filter.2 ⟨hleaf, hclear⟩)
    simpa using hne

theorem mapping_pieces {n : Node} (hn : Shaped n) (hkind : n.kind = .yaml .mapping)
    (hes : ∀ e, Element.node e ∈ n.children → Shaped e ∧
      (target.left (leafChains around e) ≠ [] → ∃ text below, EntryCut target around e text below))
    (hdepth : ∀ k ∈ depth?, k ≤ around.length)
    (hstays : keyPath around = [] ∨ target.left (leafChains around n) ≠ []) :
    ValueCut target around depth? n := by
  have hfirst : Progress.Behind {} around depth? :=
    ⟨fun _ _ => hdepth, fun _ hkept => absurd rfl hkept, nofun⟩
  obtain ⟨hview, hcarry, hlines⟩ := cutEntries_pieces (mapping_children hkind hn).2.1 hes hfirst
  rw [← pieces_mapping hkind] at hview hcarry
  rw [ValueCut, cut_mapping hkind, pieces_mapping (by exact hkind)]
  refine ⟨by simpa [piecesList] using hview, ?_⟩
  rw [← hcarry]
  cases hq : (cutEntries target around {} n.children).carry? with
  | none => rfl
  | some carry =>
      cases carry with
      | tail comment => rfl
      | leading lines =>
          -- Lines are left only where no entry stays.
          rcases hstays with hroot | hleft
          · rw [hroot]
            rfl
          · obtain ⟨p, hp, hholds⟩ := exists_holds hn hkind hleft
            rw [hlines lines hq] at hview
            refine absurd ?_ (@thin_ne_nil target depth? none _ p hp hholds)
            simpa [piecesList] using hview.symm

theorem tail_cut {n : Node} (hvalue : IsValue n) (hpath : keyPath around ≠ []) (lines : List Char) :
    (cut target around n).2 ≠ some (.leading lines) := by
  rcases hvalue with hkind | hkind
  · simp [cut_scalar hkind]
  · rw [cut_mapping hkind]
    rcases (cutEntries target around {} n.children).carry? with _ | _ | _ <;>
      simp [leftBehind, hpath]

theorem entry_pieces {n value : Node} {key colon : Token} (hkind : n.kind = .yaml .entry)
    (hes : n.children = [.token key, .token colon, .node value]) (hkey : key.kind = .text)
    (hisValue : IsValue value)
    (hvalue : ValueCut target (around ++ [n]) (some (around.length + 1)) value) :
    EntryCut target around n (ownText n.children) (pieces (around ++ [n]) value) := by
  obtain ⟨hview, horphan⟩ := hvalue
  have hcut := @cut_entry target _ _ _ _ hkind hes around
  have hscalar : value.kind ≠ .yaml .mapping → (cut target (around ++ [n]) value).1 = value :=
    fun hne => by rw [cut_scalar (hisValue.resolve_right hne)]
  have hpath : keyPath (around ++ [n]) ≠ [] := by
    rw [keyPath_snoc, entrySegments_entry hkind hes hkey]
    simp [keySegments_ne_nil]
  refine ⟨pieces_entry hkind hes around, fun lead => ?_, by rw [hcut, horphan], fun lines => ?_⟩
  · rw [hcut, pieces_entry (n := { n with lead, children := _ }) hkind rfl, List.map_cons,
      view_pieces _ (around ++ [n]), hview, hes]
    rw [Piece.view, ownText_congr (kind_cut _ value) hscalar]
  · rw [hcut]
    exact tail_cut hisValue hpath lines

theorem cut_pieces {n : Node} (hn : Shaped n) : (n.kind = .yaml .entry → ∀ {around : List Node},
      target.left (leafChains around n) ≠ [] → ∃ text below, EntryCut target around n text below) ∧
    (IsValue n → ∀ {around : List Node} {depth? : Option Nat}, (∀ k ∈ depth?, k ≤ around.length) →
      keyPath around = [] ∨ target.left (leafChains around n) ≠ [] →
        ValueCut target around depth? n) := by
  induction hn with
  | @scalar n t hkind hes =>
      refine ⟨by simp [hkind], fun _ {around depth?} _ _ => ?_⟩
      rw [ValueCut, cut_scalar hkind, pieces_scalar hkind hes]
      exact ⟨rfl, rfl⟩
  | @entry n value key colon hkind hes hkey hisValue hvalue ih =>
      refine ⟨fun _ {around} hleft => ⟨_, _, entry_pieces hkind hes hkey hisValue ?_⟩, by
        simp [IsValue, hkind]⟩
      rw [leafChains_entry hkind hes] at hleft
      exact ih.2 hisValue (by simp) (.inr hleft)
  | @mapping n hkind hne honly h ih =>
      refine ⟨by simp [hkind], fun _ {around depth?} hdepth hstays => ?_⟩
      refine mapping_pieces (.mapping hkind hne honly h) hkind (fun e he => ?_) hdepth hstays
      obtain ⟨_, ⟨⟩, hentry⟩ := honly _ he
      exact ⟨h e he, (ih e he).1 hentry⟩

end Codemod.Recipes.Deletion
