import Codemod.Proofs.Recipes.Reparsing
import Codemod.Proofs.Recipes.Thinning
import Codemod.Proofs.Yaml.ContentLines

/-!
A deletion writes no new line. The visit of each node thins out the row of pieces that is written
for it; so behind the walk each line of a document is one of the old lines, and the keys that stay
stand on their old lines, with the comments behind them.
-/

namespace Codemod.Recipes.Deletion

open Codemod.Tree Codemod.Yaml

variable {target : Target} {around : List Node}

/-! ### Rows of pieces -/

theorem Thinned.append {carry? between? left? : Option Carry} {ps ps' qs qs' : List Piece}
    (h : Thinned target carry? ps ps' between?) (h' : Thinned target between? qs qs' left?) :
    Thinned target carry? (ps ++ qs) (ps' ++ qs') left? := by
  induction h with
  | done => exact h'
  | keep hholds hchain hlead htext _ ih => exact .keep hholds hchain hlead htext (ih h')
  | drop hgone hleaves _ ih => exact .drop hgone hleaves (ih h')

theorem thinned_gone {carry : Carry} {carry? : Option Carry} {p : Piece} {ps : List Piece}
    (hgone : ∀ q ∈ p :: ps, target.holds q.chain = false) (hleaves : Leaves p.lead carry) :
    Thinned target carry? (p :: ps) [] (some (carry?.getD carry)) := by
  have hrest : ∀ (left : Carry) {qs : List Piece}, (∀ q ∈ qs, target.holds q.chain = false) →
      Thinned target (some left) qs [] (some left) := by
    intro left qs hqs
    induction qs with
    | nil => exact .done
    | cons q qs ih =>
        obtain ⟨hq, hqs⟩ := List.forall_mem_cons.1 hqs
        exact .drop hq .tail (ih hqs)
  obtain ⟨hp, hps⟩ := List.forall_mem_cons.1 hgone
  exact .drop hp hleaves (hrest _ hps)

theorem thinned_same {around' : List Node} {ps : List Piece}
    (hkeys : around'.map keyText = around.map keyText)
    (hholds : ∀ p ∈ ps, target.holds (around ++ p.chain) = true) :
    Thinned target none (ps.map fun p => { p with chain := around ++ p.chain })
      (ps.map fun p => { p with chain := around' ++ p.chain }) none := by
  induction ps with
  | nil => exact .done
  | cons p ps ih =>
      obtain ⟨hp, hps⟩ := List.forall_mem_cons.1 hholds
      exact .keep hp (by simp [hkeys]) rfl rfl (ih hps)

theorem mem_entryChains_of_piece {n : Node} {p : Piece} (h : p ∈ pieces around n) :
    p.chain ∈ entryChains around n := by
  rw [← chain_pieces]
  exact List.mem_map_of_mem h

section
variable {n : Node} (h : Shaped n)
include h

theorem holds_eq_false (hnil : target.left (leafChains around n) = []) :
    ∀ p ∈ pieces around n, target.holds p.chain = false := by
  intro p hp
  have hnone := List.filter_eq_nil_iff.1 (Target.holding_eq_nil h hnil) p.chain
    (mem_entryChains_of_piece hp)
  simpa [Target.holds] using hnone

theorem thinned_self {around' : List Node} (hkeys : around'.map keyText = around.map keyText)
    (hclear : target.covers around = false)
    (hnone : ∀ chain ∈ entryChains around n, target.selects chain = false) :
    Thinned target none (pieces around n) (pieces around' n) none := by
  have hmap : ∀ around, pieces around n =
      (pieces [] n).map fun p => { p with chain := around ++ p.chain } := fun around => by
    rw [← pieces_eq_map, List.append_nil]
  rw [hmap around, hmap around']
  refine thinned_same hkeys fun p hp => ?_
  have hmem : around ++ p.chain ∈ entryChains around n := by
    have hchain := List.mem_map_of_mem (f := (around ++ ·)) (mem_entryChains_of_piece hp)
    rwa [← entryChains_eq_map, List.append_nil] at hchain
  exact List.filter_eq_self.1 (Target.holding_eq_self h hclear hnone) _ hmem

end

/-! ### Sweeps -/

/-- What a visit makes of an entry thins out its pieces, if the entry stays at all. What was left at
its value ends a line. -/
structure Slims (target : Target) (around : List Node) (orphan : Option Carry) (e e' : Node) :
    Prop where
  lead : e'.lead = e.lead
  tail : ∀ lines, orphan ≠ some (.leading lines)
  stays : target.left (leafChains around e) ≠ [] → ∀ {around' : List Node},
    around'.map keyText = around.map keyText → ∀ carry? : Option Carry,
      Thinned target carry? (pieces around e)
        (pieces around' { e' with lead := takesOver carry? e.lead }) orphan

theorem Progress.delete_carry (p : Progress) (e : Node) :
    ∃ carry, Leaves e.lead carry ∧ (p.delete e).carry? = some (p.carry?.getD carry) ∧
      ∀ lines, carry = .leading lines → p.kept = [] := by
  by_cases hnil : p.kept = []
  · exact ⟨_, .leading, by simp [Progress.delete, hnil], fun _ _ => hnil⟩
  · exact ⟨_, .tail, by simp [Progress.delete, hnil], by rintro _ ⟨⟩⟩

theorem Visited.thinned_gone {e e' : Node} {changed : Bool} (h : Visited target around e e' changed)
    (hnil : target.left (leafChains around e) = []) {carry : Carry} (hleaves : Leaves e.lead carry)
    (carry? : Option Carry) :
    Thinned target carry? (pieces around e) [] (some (carry?.getD carry)) := by
  have hgone := holds_eq_false h.shaped hnil
  obtain ⟨value, value', key, colon, hkind, hes, _⟩ := h
  rw [pieces_entry hkind hes] at hgone ⊢
  exact Deletion.thinned_gone hgone hleaves

theorem sweep_slims {orphans : Orphans} {path : List Nat} {index : Nat} {es es' : List Element}
    {below : Bool} (hlive : target.path.continues (keyPath around) = true)
    (h : VisitedAll target around orphans path index es es' below)
    (hslim : EachEntry (Slims target around) orphans path index es es') {p : Progress}
    (hp : ∀ lines, p.carry? = some (.leading lines) → p.kept = []) :
    ∃ kept, (sweep target (keyPath around) orphans path index p es').kept = p.kept ++ kept ∧
      (∀ around' : List Node, around'.map keyText = around.map keyText →
        Thinned target p.carry? (piecesList around es) (piecesList around' kept)
          (sweep target (keyPath around) orphans path index p es').carry?) ∧
      ∀ lines, (sweep target (keyPath around) orphans path index p es').carry? =
        some (.leading lines) →
          (sweep target (keyPath around) orphans path index p es').kept = [] := by
  induction h generalizing p with
  | nil => exact ⟨[], by rw [sweep, List.append_nil], fun _ _ => .done, hp⟩
  | @cons index e e' es es' changed others h hfound hrest ih =>
      cases hslim with
      | cons hslims hslim =>
      by_cases hnil : target.left (leafChains around e) = []
      · rw [h.sweep_gone hlive orphans path index p es' hnil]
        obtain ⟨carry, hleaves, hcarry, hfirst⟩ := p.delete_carry e'
        have hp' : ∀ lines, (p.delete e').carry? = some (.leading lines) → p.kept = [] := by
          intro lines hlines
          rw [hcarry] at hlines
          cases hleft : p.carry? with
          | some left => exact hp lines (by rw [hleft]; rwa [hleft] at hlines)
          | none =>
              rw [hleft] at hlines
              exact hfirst lines (Option.some.inj hlines)
        obtain ⟨kept, hkept, hthin, hlast⟩ := ih hslim (p := p.delete e') hp'
        refine ⟨kept, hkept, fun around' hkeys => ?_, hlast⟩
        rw [hslims.lead] at hleaves
        have hrest := hthin around' hkeys
        rw [hcarry] at hrest
        exact (h.thinned_gone hnil hleaves p.carry?).append hrest
      · rw [h.sweep_stays hlive orphans path index p es' hnil, Progress.keep_takesOver, hslims.lead]
        obtain ⟨kept, hkept, hthin, hlast⟩ := ih hslim
          (p := ⟨p.kept ++ [.node { e' with lead := takesOver p.carry? e.lead }],
            orphans.at? (path ++ [index, 2]), _⟩)
          fun lines hlines => absurd hlines (hslims.tail lines)
        refine ⟨.node { e' with lead := takesOver p.carry? e.lead } :: kept, ?_,
          fun around' hkeys => ?_, hlast⟩
        · rw [hkept, List.append_assoc]
          rfl
        · exact (hslims.stays hnil hkeys p.carry?).append (hthin around' hkeys)

/-! ### Visits -/

/-- What a visit makes of a node thins out the pieces of the node. -/
structure Thins (target : Target) (cursor : Cursor) (n : Node) (s : Orphans) (n' : Node)
    (s' : Orphans) : Prop where
  kind : n'.kind = n.kind
  scalar : n.kind = .yaml .scalar → n' = n ∧ s' = s
  entry : n.kind = .yaml .entry → Slims target (chainAt cursor) (s'.at? (cursor.path ++ [2])) n n'
  kept : n.kind = .yaml .mapping →
    target.left (leafChains (chainAt cursor) n) ≠ [] ∨ chainAt cursor = [] →
    ∀ around' : List Node, around'.map keyText = (chainAt cursor).map keyText →
      Thinned target none (pieces (chainAt cursor) n) (pieces around' n') (s'.at? cursor.path)
  tail : n.kind = .yaml .mapping → keyPath (chainAt cursor) ≠ [] →
    ∀ lines, s'.at? cursor.path ≠ some (.leading lines)

/-- The relation of visits that thin out the pieces of a node. -/
def Thinning (target : Target) (cursor : Cursor) : VisitRelation Orphans :=
  fun n s n' changed s' => Shaped n → Fresh cursor.path s →
    VisitedAt target cursor n s n' changed s' ∧ Thins target cursor n s n' s'

theorem visiting_of_thinning {cursor : Cursor} {n n' : Node} {s s' : Orphans} {changed : Bool}
    (h : Thinning target cursor n s n' changed s') : Visiting target cursor n s n' changed s' :=
  fun hn hfresh => (h hn hfresh).1

theorem pieces_of_scalar {n : Node} (h : Shaped n) (hkind : n.kind = .yaml .scalar) :
    pieces around n = [] := by
  cases h with
  | scalar _ hes => exact pieces_scalar hkind hes around
  | entry hentry =>
      rw [hkind] at hentry
      cases hentry
  | mapping hmapping =>
      rw [hkind] at hmapping
      cases hmapping

theorem entry_slims {n value value' : Node} {key colon : Token} {cursor : Cursor} {s s' : Orphans}
    (hkind : n.kind = .yaml .entry) (hes : n.children = [.token key, .token colon, .node value])
    (hkey : key.kind = .text) (hisValue : IsValue value) (hvalue : Shaped value)
    (hfresh : Fresh cursor.path s) (h : Thins target (⟨n, 2⟩ :: cursor) value s value' s') :
    Slims target (chainAt cursor) (s'.at? (cursor.path ++ [2])) n
      { n with children := [.token key, .token colon, .node value'] } := by
  have hchain := chainAt_entry 2 cursor hkind
  refine ⟨rfl, fun lines => ?_, fun hleft around' hkeys carry? => ?_⟩
  · rcases hisValue with hscalar | hmapping
    · obtain ⟨-, rfl⟩ := h.scalar hscalar
      rw [at_of_fresh hfresh [2]]
      nofun
    · have htail := h.tail hmapping (by
        rw [hchain, keyPath_snoc, entrySegments_entry hkind hes hkey]
        simp [keySegments_ne_nil]) lines
      rwa [path_cons] at htail
  · obtain ⟨e, he⟩ : ∃ e : Node, e = { n with
      lead := takesOver carry? n.lead, children := [.token key, .token colon, .node value'] } :=
      ⟨_, rfl⟩
    have hkind' : e.kind = .yaml .entry := by rw [he]; exact hkind
    have hes' : e.children = [.token key, .token colon, .node value'] := by rw [he]
    have hkeyText : keyText e = keyText n := by
      rw [keyText, keyText, entryKey_entry hkind' hes' hkey, entryKey_entry hkind hes hkey]
    show Thinned target carry? _ (pieces around' { n with
      lead := takesOver carry? n.lead, children := [.token key, .token colon, .node value'] }) _
    rw [← he, pieces_entry hkind hes, pieces_entry hkind' hes']
    refine .keep ?_ (by simp [hkeys, hkeyText]) (by rw [he]) ?_ ?_
    · simpa [Target.holds, leavesUnder_entry hes, ← leafChains_entry hkind hes] using hleft
    · show ownText e.children = ownText n.children
      rw [hes, hes']
      exact ownText_congr h.kind fun hne => (h.scalar (hisValue.resolve_right hne)).1
    · rcases hisValue with hscalar | hmapping
      · obtain ⟨rfl, rfl⟩ := h.scalar hscalar
        rw [pieces_of_scalar hvalue hscalar, pieces_of_scalar hvalue hscalar, at_of_fresh hfresh [2]]
        exact .done
      · have hvalueLeft : target.left (leafChains (chainAt (⟨n, 2⟩ :: cursor)) value) ≠ [] := by
          rwa [hchain, ← leafChains_entry hkind hes]
        have hkept := h.kept hmapping (.inl hvalueLeft)
          (around' ++ [e]) (by rw [hchain]; simp [hkeys, hkeyText])
        rwa [hchain, path_cons] at hkept

theorem thins_kept {n : Node} {cursor : Cursor} {s s' : Orphans} {p : Progress} {changed : Bool}
    (hkind : n.kind = .yaml .mapping)
    (hthin : ∀ around' : List Node, around'.map keyText = (chainAt cursor).map keyText →
      Thinned target none (piecesList (chainAt cursor) n.children) (piecesList around' p.kept)
        p.carry?)
    (hlast : ∀ lines, p.carry? = some (.leading lines) → p.kept = [])
    (hpruned : Pruned target (chainAt cursor) n { n with children := p.kept } changed)
    (hat : s'.at? cursor.path = leftBehind (keyPath (chainAt cursor)) p.carry?) :
    Thins target cursor n s { n with children := p.kept } s' := by
  refine ⟨rfl, by simp [hkind], by simp [hkind], fun _ hstays around' hkeys => ?_,
    fun _ hroot lines => ?_⟩
  · have hsame : leftBehind (keyPath (chainAt cursor)) p.carry? = p.carry? := by
      rcases hcarry : p.carry? with _ | lines | comment
      · rfl
      · rcases hstays with hleft | hroot
        · have hne : p.kept ≠ [] :=
            (mapping_children (n := { n with children := p.kept }) hkind (hpruned.shaped hleft)).1
          exact absurd (hlast lines hcarry) hne
        · rw [hroot]
          rfl
      · rfl
    rw [hat, hsame, pieces_mapping hkind,
      pieces_mapping (n := { n with children := p.kept }) hkind]
    exact hthin around' hkeys
  · rw [hat]
    rcases p.carry? with _ | lines | comment <;> simp [leftBehind, hroot]

section
variable {n : Node} {cursor : Cursor} {s s' : Orphans} {es' : List Element} {below : Bool}
  (hkind : n.kind = .yaml .mapping) (hn : Shaped n) (hfresh : Fresh cursor.path s)
  (h : SweptAt (Thinning target) n cursor 0 n.children s es' below s')
include hkind hn hfresh h

theorem thins_dead (hdead : target.path.continues (keyPath (chainAt cursor)) = false) :
    Thins target cursor n s { n with children := es' } s' := by
  obtain ⟨hne, honly, hshaped⟩ := mapping_children hkind hn
  obtain ⟨rfl, rfl, rfl⟩ := same_of_swept hkind honly hshaped
    (h.imp fun _ _ _ _ _ _ => visiting_of_thinning) hdead fun i _ => hfresh.below [i]
  have hat : s'.at? cursor.path = none := by simpa using at_of_fresh hfresh []
  rw [eta_eq]
  refine ⟨rfl, by simp [hkind], by simp [hkind], fun _ hstays around' hkeys => ?_,
    fun _ _ lines => by simp [hat]⟩
  rcases hstays with hleft | hroot
  · have hclear : target.covers (chainAt cursor) = false := by
      by_contra hcovers
      exact hleft (Target.left_eq_nil (by simpa using hcovers))
    rw [hat]
    exact thinned_self hn hkeys hclear (Target.selects_eq_false hn hdead)
  · rw [hroot, show keyPath [] = [] from rfl, Target.continues_nil] at hdead
    cases hdead

theorem mapping_thins :
    let v : Node := { n with children := es' }
    let left := mapping target v cursor s'
    Thins target cursor n s (left.1.getD v) left.2 := by
  intro v left
  cases hlive : target.path.continues (keyPath (chainAt cursor)) with
  | false =>
      have hleft : left = (none, s') := mapping_dead hlive
      rw [hleft]
      exact thins_dead hkind hn hfresh h hlive
  | true =>
      obtain ⟨hne, honly, hshaped⟩ := mapping_children hkind hn
      have hfresh' : ∀ i, 0 ≤ i → Fresh (cursor.path ++ [i]) s := fun i _ => hfresh.below [i]
      obtain ⟨⟨later, hlater, hstarts, _⟩, hall⟩ := visitedAll_of_swept hkind honly hshaped
        (h.imp fun _ _ _ _ _ _ => visiting_of_thinning) hlive hfresh'
      have hslim : EachEntry (Slims target (chainAt cursor)) s' cursor.path 0 n.children es' := by
        refine eachEntry_of_swept visiting_of_thinning (fun {index} _ _ _ _ _ hvisit hentry hpath hk =>
          ?_) hkind honly hshaped h hlive hfresh'
        rw [← path_cons n] at hpath
        have hslims := (hvisit hentry hpath).2.entry hk
        rwa [path_cons, List.append_assoc, chainAt_other index cursor (by simp [hkind])] at hslims
      have hpruned := pruned_mapping hkind hlive hall
      have hleft : left = _ := mapping_live hlive
      obtain ⟨kept, hkept, hthin, hlast⟩ := sweep_slims hlive hall hslim (p := {}) nofun
      obtain ⟨p, hp⟩ : ∃ p, sweep target (keyPath (chainAt cursor)) s' cursor.path 0 {} es' = p :=
        ⟨_, rfl⟩
      simp only at hpruned hleft
      rw [hp] at hpruned hleft hkept hthin hlast
      obtain rfl : p.kept = kept := hkept
      have hat : s'.at? cursor.path = none := by
        rw [hlater, at_append_of_ne fun o ho hpath => ?_]
        · simpa using at_of_fresh hfresh []
        · obtain ⟨i, _, hi⟩ := hstarts o ho
          have hlength := hi.length_le
          rw [hpath, List.length_append, List.length_singleton] at hlength
          omega
      cases hchanged : p.changed with
      | true =>
          rw [hchanged, if_pos rfl] at hleft
          rw [hleft]
          exact thins_kept hkind hthin hlast hpruned (at_left hat)
      | false =>
          have hkept : p.kept = es' := by
            rw [← hp, sweep_unchanged hlive hall rfl (hp ▸ hchanged)]
            rfl
          have hcarry : p.carry? = none := by
            rw [← hp]
            exact sweep_idle (fun _ => rfl) (hp ▸ hchanged)
          rw [hchanged, if_neg (by simp)] at hleft
          rw [hleft]
          show Thins target cursor n s { n with children := es' } s'
          rw [← hkept]
          exact thins_kept hkind hthin hlast hpruned (by rw [hat, hcarry]; rfl)

end

theorem leaves_thinning (target : Target) : (visitor target).LeavesAt (Thinning target) := by
  intro n cursor s s' es' changed hswept v left hn hfresh
  refine ⟨leaves_visiting target (hswept.imp fun _ _ _ _ _ _ => visiting_of_thinning) hn hfresh, ?_⟩
  cases id hn with
  | @scalar _ t hkind hes =>
      have hleft : left = (none, s') :=
        leave_inner (n := v) (by simp [v, hkind]) (by simp [v, hkind])
      rw [hes] at hswept
      cases hswept with
      | token h =>
      cases h
      rw [hleft]
      show Thins target cursor n s ⟨n.kind, n.lead, [.token t], n.markers, n.type?⟩ s
      rw [← hes, eta_eq]
      exact ⟨rfl, fun _ => ⟨rfl, rfl⟩, by simp [hkind], by simp [hkind], by simp [hkind]⟩
  | @entry _ value key colon hkind hes hkey hisValue hvalue =>
      have hleft : left = (none, s') :=
        leave_inner (n := v) (by simp [v, hkind]) (by simp [v, hkind])
      rw [hleft]
      rw [hes] at hswept
      cases hswept with
      | token h =>
      cases h with
      | token h =>
      cases h with
      | @node _ _ value' _ _ _ _ _ _ _ hvisit h =>
      cases h
      obtain ⟨_, hthins⟩ := hvisit hvalue (by
        rw [path_cons]
        exact hfresh.below [2])
      exact ⟨rfl, by simp [hkind],
        fun _ => entry_slims hkind hes hkey hisValue hvalue hfresh hthins, by simp [hkind],
        by simp [hkind]⟩
  | mapping hkind hne honly h =>
      have hleft : left = mapping target v cursor s' := leave_mapping hkind
      rw [hleft]
      exact mapping_thins hkind hn hfresh hswept

/-! ### The document -/

theorem ruled_append {fresh : Prop} {ps qs : List Piece} (hps : Ruled fresh ps)
    (hqs : Ruled (ps = [] ∧ fresh) qs) : Ruled fresh (ps ++ qs) := by
  induction ps generalizing fresh with
  | nil => exact hqs.mono And.right
  | cons p ps ih => exact ⟨hps.1, hps.2.1, ih hps.2.2 (hqs.mono fun h => absurd h.1 (by simp))⟩

theorem ruled_of_laid {front last : Edge} {column : Nat} {es : List Element}
    (h : Laid front column es last) (around : List Node) :
    Ruled (front = .start) (piecesList around es) := by
  induction h generalizing around with
  | nil => trivial
  | scalar hlead _ hvalue _ ih =>
      obtain ⟨blanks, text, rfl, _⟩ := print_scalarLaid hvalue
      rw [piecesList, piecesElement, pieces_scalarEntry, List.singleton_append]
      refine ⟨?_, ?_, (ih around).mono hvalue.ne_start⟩
      · simpa [or_iff_not_imp_left] using hlead.line
      · simpa using hlead.closed
  | @nested _ _ _ _ _ _ raw _ _ _ hlead _ _ hne hchildren _ ihchildren ih =>
      rw [piecesList, piecesElement, pieces_nestedEntry, List.cons_append]
      refine ⟨?_, ?_, ruled_append ((ihchildren _).mono (colonBehind_ne_start raw))
        ((ih around).mono fun h => absurd h (hchildren.ne_start (.inl hne)))⟩
      · simpa [or_iff_not_imp_left] using hlead.line
      · simpa using hlead.closed

theorem contentLines_onlyComments (lead : String) :
    (contentLines (onlyComments lead).toList).Sublist (contentLines lead.toList) := by
  rw [onlyComments]
  split_ifs
  · obtain ⟨blanks, hsplit, hwhole⟩ := exists_blankLines lead.toList
    rw [String.toList_ofList]
    nth_rewrite 2 [hsplit]
    rw [hwhole.contentLines]
    exact List.sublist_append_right _ _
  · simp

theorem isCommentLine_of_trivia {cs : List Char} (h : IsTrivia cs) (hne : cs ≠ [])
    (hlast : ∀ c, cs.getLast? = some c → Text.isBlank c = false) : isCommentLine cs = true := by
  induction cs with
  | nil => contradiction
  | cons c cs ih =>
      rw [IsTrivia, commentBehind] at h
      split_ifs at h with hspace hsign
      · have hblank := isBlank_of_isSpace hspace
        have hcs : cs ≠ [] := by
          rintro rfl
          cases hblank.symm.trans (hlast c rfl)
        rw [isCommentLine, List.dropWhile_cons_of_pos hblank]
        refine ih h hcs fun d hd => hlast d ?_
        rw [List.getLast?_cons, hd]
        rfl
      · rw [isCommentLine, hsign, List.dropWhile_cons_of_neg (by decide)]
        rfl
      · cases h

theorem isCommentLine_contentLines {cs : List Char} (h : IsTrivia cs) :
    ∀ line ∈ contentLines cs, isCommentLine line = true := by
  induction hlength : cs.length using Nat.strong_induction_on generalizing cs with
  | h length ih =>
      have honly : ∀ {line : List Char}, IsTrivia line → '\n' ∉ line →
          ∀ content ∈ contentLines line, isCommentLine content = true := by
        intro line hline hbreak content hcontent
        rw [contentLines_line hbreak, List.mem_filter, List.mem_singleton] at hcontent
        obtain ⟨rfl, hne⟩ := hcontent
        obtain ⟨blanks, hsplit, -, hlast⟩ := Text.exists_trimRight line
        rw [hsplit, IsTrivia, commentBehind_append] at hline
        exact isCommentLine_of_trivia (Option.isSome_of_isSome_bind hline) (by simpa using hne) hlast
      by_cases hbreak : '\n' ∈ cs
      · obtain ⟨line, rest, rfl, hline⟩ := List.eq_append_cons_of_mem hbreak
        rw [IsTrivia, commentBehind_append] at h
        have htrivia : IsTrivia line := Option.isSome_of_isSome_bind h
        obtain ⟨comment, hcomment⟩ := Option.isSome_iff_exists.1 htrivia
        rw [hcomment, Option.bind_some, commentBehind_break] at h
        rw [contentLines_break]
        refine List.forall_mem_append.2 ⟨honly htrivia hline, ih rest.length ?_ h rfl⟩
        rw [← hlength, List.length_append, List.length_cons]
        omega
      · exact honly h hbreak

/-- What stays of the lines of a document. -/
structure Kept (target : Target) (d d' : Node) : Prop where
  keys : (keyLines [] [] [] d').map lineView =
    ((keyLines [] [] [] d).filter fun x => target.holds x.1).map lineView
  placed : ∀ x ∈ keyLines [] [] [] d', x.2 ∈ Text.splitOn '\n' d'.print.toList
  lines : keyLines [] [] [] d' ≠ [] →
    (contentLines d'.print.toList).Sublist (contentLines d.print.toList)
  emptied : keyLines [] [] [] d' = [] → d' = d ∨
    (∀ t ∈ d'.leaves, t.text = "") ∧
      (∀ line ∈ contentLines d'.print.toList, isCommentLine line = true) ∧
      (contentLines d'.print.toList).Sublist (contentLines (belowMarker d))

theorem Thinned.gone {carry? left? : Option Carry} {ps : List Piece}
    (h : Thinned target carry? ps [] left?) : ∀ p ∈ ps, target.holds p.chain = false := by
  induction ps generalizing carry? with
  | nil => nofun
  | cons p ps ih =>
      cases h with
      | drop hgone _ h => exact List.forall_mem_cons.2 ⟨hgone, ih h⟩

theorem keyLines_ne_nil (before behind : List Char) {front last : Edge} {column : Nat}
    {es : List Element} (h : Laid front column es last) (hne : es ≠ []) :
    placedLines before behind (piecesList [] es) ≠ [] := by
  cases h with
  | nil => exact absurd rfl hne
  | scalar _ _ hvalue =>
      obtain ⟨blanks, text, rfl, _⟩ := print_scalarLaid hvalue
      simp [piecesList, piecesElement, pieces_scalarEntry, placedLines]
  | nested => simp [piecesList, piecesElement, pieces_nestedEntry, placedLines]

section
variable {marker es : List Element} {lead : List Char} {front last : Edge} {column : Nat}
  (hmarker : MarkerLaid marker front) (hlaid : Laid front column es last)
include hmarker hlaid

theorem kept_entries {es' : List Element} {carry? : Option Carry} {last' : Edge}
    (hlaid' : Laid front column es' last') (hne : es' ≠ [])
    (hthin : Thinned target none (piecesList [] es) (piecesList [] es') carry?) :
    Kept target (documentNode marker [.node (mappingNode es)] lead)
      (documentNode marker [.node (mappingNode es')]
        (takesOver carry? (String.ofList lead)).toList) := by
  obtain ⟨start, hstart⟩ : ∃ start, start = (Node.printList .sequence marker).toList := ⟨_, rfl⟩
  have hruled : Ruled (start = [] ∧ (none : Option Carry) = none) (piecesList [] es) := by
    refine (ruled_of_laid hlaid []).mono fun hfront => ⟨?_, rfl⟩
    cases hmarker with
    | none => exact hstart
    | marked => cases hfront
  have hlevel : Abreast start start none := (Level.nil).append start
  have hkeys := hthin.keyLines hruled hlevel (String.ofList lead)
  have hlines := (hthin.abreast hruled hlevel).lines (String.ofList lead)
  rw [String.toList_ofList] at hkeys hlines
  have hne' := keyLines_ne_nil start (takesOver carry? (String.ofList lead)).toList hlaid' hne
  refine ⟨?_, fun x hx => ?_, fun _ => ?_, fun hnil => ?_⟩
  · rwa [keyLines_laidDocument hmarker hlaid', keyLines_laidDocument hmarker hlaid, ← hstart]
  · rw [keyLines_laidDocument hmarker hlaid'] at hx
    rw [print_laidDocument hlaid']
    exact mem_placedLines hx
  · rw [print_laidDocument hlaid', print_laidDocument hlaid, ← hstart]
    simpa using hlines
  · rw [keyLines_laidDocument hmarker hlaid', ← hstart] at hnil
    exact absurd hnil hne'

theorem kept_comments {lines : List Char}
    (htrivia : IsTrivia ((Carry.leading lines).onto (String.ofList lead)).toList)
    (hthin : Thinned target none (piecesList [] es) [] (some (.leading lines))) :
    Kept target (documentNode marker [.node (mappingNode es)] lead)
      (documentNode [] []
        (onlyComments ((Carry.leading lines).onto (String.ofList lead))).toList) := by
  have hnone : keyLines [] [] [] (documentNode [] [] (onlyComments
      ((Carry.leading lines).onto (String.ofList lead))).toList) = [] := by
    simp [documentNode, keyLines, keyLinesList, keyLinesElement]
  have hruled : Ruled (([] : List Char) = [] ∧ (none : Option Carry) = none) (piecesList [] es) :=
    (ruled_of_laid hlaid []).mono fun _ => ⟨rfl, rfl⟩
  have hlines := (hthin.abreast hruled Level.nil).lines (String.ofList lead)
  refine ⟨?_, ?_, fun hsome => absurd hnone hsome, fun _ => .inr ?_⟩
  · have hgone : ∀ x ∈ placedLines (Node.printList .sequence marker).toList lead (piecesList [] es),
        ¬ target.holds x.1 = true := fun x hx => by
      have hchain := List.mem_map_of_mem (f := Prod.fst) hx
      rw [chains_placedLines] at hchain
      obtain ⟨p, hp, hpchain⟩ := List.mem_map.1 hchain
      simp [← hpchain, hthin.gone p hp]
    rw [hnone, keyLines_laidDocument hmarker hlaid, List.filter_eq_nil_iff.2 hgone]
  · simp [hnone]
  · have hprint := print_documentNode [] []
      (onlyComments ((Carry.leading lines).onto (String.ofList lead))).toList
    simp only [Node.printList, String.toList_empty, List.nil_append] at hprint
    rw [hprint, belowMarker_documentNode hmarker hlaid]
    refine ⟨by simp [documentNode, Node.leaves, Node.leavesList, Element.leaves],
      isCommentLine_contentLines (endAt_onlyComments htrivia).trivia, ?_⟩
    refine List.Sublist.trans ?_ (by simpa [written, takesOver] using hlines)
    exact contentLines_onlyComments _

theorem kept_of_visited {m' : Node} {s : Orphans} (hend : EndAt last lead)
    (hstitched : Stitched [⟨documentNode marker [.node (mappingNode es)] lead, marker.length⟩]
      (mappingNode es) [] m' s)
    (hthins : Thins target [⟨documentNode marker [.node (mappingNode es)] lead, marker.length⟩]
      (mappingNode es) [] m' s) :
    let v := documentNode marker [.node m'] lead
    Kept target (documentNode marker [.node (mappingNode es)] lead) ((document v s).getD v) := by
  intro v
  have hroot :
      chainAt [⟨documentNode marker [.node (mappingNode es)] lead, marker.length⟩] = [] := by
    simp [chainAt, Cursor.ancestors, documentNode]
  have hm' : m' = mappingNode m'.children := hstitched.mapping rfl
  have hmade := @document_eq marker m' ⟨.eof, String.ofList lead, ""⟩ hmarker.tokens hthins.kind rfl
    v rfl s
  have hthin := hthins.kept rfl (.inr hroot) [] (by rw [hroot])
  rw [hroot, pieces_mapping rfl, pieces_mapping (n := m') hthins.kind] at hthin
  rw [show Cursor.path _ = [marker.length] from rfl] at hthin
  by_cases hnil : m'.children = []
  · obtain ⟨lines, hat, hlines⟩ := hstitched.emptied rfl hnil hroot hlaid
    have htrivia : IsTrivia ((Carry.leading lines).onto (String.ofList lead)).toList :=
      isTrivia_onto hlines.closed (by simpa using hend.trivia)
    rw [show Cursor.path _ = [marker.length] from rfl] at hat
    have hempty : m'.childNodes.isEmpty = true := by simp [Node.childNodes, hnil]
    rw [hat, hnil] at hthin
    rw [hmade, hat, Option.map_some, if_pos hempty, Option.getD_some]
    simpa [documentNode, v] using kept_comments hmarker hlaid htrivia hthin
  · obtain ⟨last', hlaid', _⟩ := hstitched.kept rfl hnil hlaid
    have hempty : m'.childNodes.isEmpty = false := by
      rw [childNodes_isEmpty (entriesOnly_of_laid hlaid')]
      simpa using hnil
    have hkept := @kept_entries _ _ _ lead _ _ _ hmarker hlaid _ _ _ hlaid' hnil hthin
    rw [← hm'] at hkept
    rw [hmade]
    cases hat : s.at? [marker.length] with
    | none => simpa [hat, takesOver, v] using hkept
    | some carry => simpa [hat, takesOver, hempty, documentNode, v] using hkept

end

theorem deleted_kept (target : Target) {d : Node} (hd : DocumentShaped d) (h : DocumentLaid d) :
    Kept target d (deleted target d) := by
  have hleaves : (visitor target).LeavesAt fun cursor n s n' changed s' =>
      Stitching target cursor n s n' changed s' ∧ Thinning target cursor n s n' changed s' :=
    fun hswept => ⟨leaves_stitching target (hswept.imp fun _ _ _ _ _ _ h => h.1),
      leaves_thinning target (hswept.imp fun _ _ _ _ _ _ h => h.2)⟩
  obtain ⟨es', below, s, hswept, hresult, _⟩ := walk_document hleaves hd.kind
  obtain @⟨marker, mapping, front, last, lead, hmarker, hmapping, hend⟩ := h
  have htokens : ∀ e ∈ marker, ∃ t, e = .token t := fun e he => by
    obtain ⟨t, ht, _⟩ := hmarker.tokens e he
    exact ⟨t, ht⟩
  have hparts : ∀ mapping, (documentNode marker mapping lead).children =
      marker ++ (mapping ++ [.token ⟨.eof, String.ofList lead, ""⟩]) := fun mapping =>
    List.append_assoc ..
  rw [hparts] at hswept
  obtain ⟨rest, rfl, hrest⟩ := swept_tokens htokens hswept
  rw [Nat.zero_add] at hrest
  rw [deleted, hresult]
  cases hmapping with
  | none =>
      cases hrest with
      | token h =>
      cases h
      have hnone : keyLines [] [] [] (documentNode marker [] lead) = [] := by
        cases hmarker <;> simp [documentNode, keyLines, keyLinesList, keyLinesElement]
      rw [document_none, Option.getD_none]
      have hsame := eta_eq (documentNode marker [] lead)
      rw [hparts] at hsame
      rw [List.nil_append] at hsame
      rw [hsame]
      exact ⟨by simp [hnone], by simp [hnone], fun hsome => absurd hnone hsome, fun _ => .inl rfl⟩
  | @some _ column es hne hlaid =>
      cases hrest with
      | @node _ _ m' _ _ _ _ _ _ _ hn h =>
      cases h with
      | token h =>
      cases h
      have hm := (hd.child (c := mappingNode es) (by simp [documentNode])).2
      have hkept := kept_of_visited hmarker hlaid hend (hn.1 hm (List.forall_mem_nil _)).2
        (hn.2 hm (List.forall_mem_nil _)).2
      rwa [← eta_eq (documentNode marker [.node m'] lead), hparts] at hkept

/-- Behind a deletion the lines of the text, without the blanks behind each and without those that
are blank, are lines of the source in their order, unless no entry is left. Then the document is
unchanged, or neither a marker nor any other token with a text is left in it, and the lines are
comments out of what stood below the marker. The keys that stay are those over a scalar that stays,
in their order, and each stands on its old line, with the comment behind it. This holds wherever no
text of the source runs over its line. -/
theorem deleteProperty_lines {source key : String} {d : Node} {path : KeyPath}
    (hdocument : parseDocument source = .ok d) (hlines : ∀ t ∈ d.leaves, '\n' ∉ t.text.toList)
    (hpath : KeyPath.parse key = .ok path) (expected : Option Recipe.OptionValue)
    {coalesce : Option Bool} (h : coalesce ≠ some true) :
    let target : Target := ⟨path, expected⟩
    let result := (deleteProperty (some key) expected coalesce).apply ⟨d, []⟩
    let kept := keyLines [] [] [] result.root
    (kept ≠ [] → (contentLines result.root.print.toList).Sublist (contentLines source.toList)) ∧
      (kept = [] → result.root = d ∨
        (∀ t ∈ result.root.leaves, t.text = "") ∧
          (∀ line ∈ contentLines result.root.print.toList, isCommentLine line = true) ∧
          (contentLines result.root.print.toList).Sublist (contentLines (belowMarker d))) ∧
      kept.map lineView =
        ((keyLines [] [] [] d).filter fun x => target.holds x.1).map lineView ∧
      ∀ x ∈ kept, Text.trimRight x.2 ∈ contentLines result.root.print.toList := by
  intro target result kept
  have hresult : result.root = deleted target d := by
    rw [show result = _ from apply_eq hpath expected h d, deleted]
    cases ((visitor target).walk d []).1 <;> rfl
  have hlaid := laid_of_parseDocument hdocument hlines
  have hkept := deleted_kept target (shaped_of_parseDocument hdocument) hlaid
  rw [← hresult] at hkept
  have hsource : d.print = source := print_of_parseDocument hdocument
  refine ⟨hsource ▸ hkept.lines, hkept.emptied, hkept.keys, fun x hx => ?_⟩
  refine mem_contentLines (hkept.placed x hx) fun hblank => ?_
  -- The line is one of the old, and so it holds the colon of its key.
  have hold := List.mem_map_of_mem (f := lineView) hx
  rw [hkept.keys] at hold
  obtain ⟨y, hy, hview⟩ := List.mem_map.1 hold
  have hcolon := colon_of_keyLines hlaid hlines y (List.mem_filter.1 hy).1
  have htrim := mem_trimRight (by decide) hcolon
  rw [show Text.trimRight y.2 = Text.trimRight x.2 from congrArg Prod.snd hview, hblank] at htrim
  cases htrim

/-- The comment that ends the line of the last entry that stays stood in front of a mapping that
goes. -/
theorem deleteProperty_lines_comments :
    let source := "---\na:\n  b: 1 # y\n  c:\n    d: 2 # z\n# end"
    let recipe := deleteProperty (some "a.c") none none
    ∃ d, parseDocument source = .ok d ∧
      let result := (recipe.apply ⟨d, []⟩).root
      let kept := keyLines [] [] [] result
      kept.map lineView =
          [([some "a"], "a:".toList), ([some "a", some "b"], "  b: 1 # y".toList)] ∧
        (contentLines result.print.toList).Sublist (contentLines source.toList) ∧
        ∀ x ∈ kept, Text.trimRight x.2 ∈ contentLines result.print.toList := by
  intro source recipe
  have hparses : (parseDocument source).toOption.map (fun d =>
      (d.leaves.all fun t => !t.text.toList.contains '\n',
        (keyLines [] [] [] (recipe.apply ⟨d, []⟩).root).map lineView)) =
      some (true, [([some "a"], "a:".toList), ([some "a", some "b"], "  b: 1 # y".toList)]) := by
    decide +kernel
  have hpath : KeyPath.parse "a.c" = .ok ⟨["a", "c"], by simp⟩ := by decide +kernel
  cases hdocument : parseDocument source with
  | error e =>
      rw [hdocument] at hparses
      cases hparses
  | ok d =>
      rw [hdocument] at hparses
      simp only [Except.toOption, Option.map_some, Option.some.injEq, Prod.mk.injEq,
        List.all_eq_true, Bool.not_eq_true', List.contains_eq_mem, decide_eq_false_iff_not] at hparses
      obtain ⟨hsublist, _, _, hplaced⟩ :=
        deleteProperty_lines hdocument hparses.1 hpath none (show none ≠ some true by simp)
      refine ⟨d, rfl, hparses.2, hsublist fun hnil => ?_, hplaced⟩
      have hkept := hparses.2
      rw [hnil] at hkept
      cases hkept

/-- What stands behind the marker of a document without entries is no line of the source. -/
theorem marker_line_cut :
    let source := "--- # h\na: 1\n"
    let recipe := deleteProperty (some "a") none none
    ∃ d, parseDocument source = .ok d ∧ (recipe.apply ⟨d, []⟩).root.print = " # h\n" ∧
      ¬ (contentLines (recipe.apply ⟨d, []⟩).root.print.toList).Sublist
        (contentLines source.toList) := by
  intro source recipe
  have hparses : (parseDocument source).toOption.map (fun d => (recipe.apply ⟨d, []⟩).root.print) =
      some " # h\n" := by
    decide +kernel
  cases hdocument : parseDocument source with
  | error e =>
      rw [hdocument] at hparses
      cases hparses
  | ok d =>
      rw [hdocument] at hparses
      have hprint : (recipe.apply ⟨d, []⟩).root.print = " # h\n" := Option.some.inj hparses
      refine ⟨d, rfl, hprint, ?_⟩
      rw [hprint]
      decide +kernel

end Codemod.Recipes.Deletion
