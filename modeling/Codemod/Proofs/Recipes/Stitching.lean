import Codemod.Proofs.Recipes.Carrying
import Codemod.Proofs.Yaml.Layout

/-!
What a deletion puts in front of the entries that stay leads to their old column. It is a piece of
what stood in front of the first deleted entry, which begins in the old place, and a piece of what
stood in front of the entry that stays, which ends in its last line.
-/

namespace Codemod.Recipes.Deletion

open Codemod.Tree Codemod.Yaml

/-! ### Pieces of trivia in their place -/

/-- A comment that can end the line behind an edge. -/
structure TailAt (edge : Edge) (comment : List Char) : Prop where
  trivia : IsTrivia comment
  apart : Apart edge comment

/-- Whole lines that can stand behind an edge. -/
structure LinesAt (edge : Edge) (lines : List Char) : Prop where
  closed : commentBehind false lines = some false
  whole : lines = [] ∧ edge = .start ∨ ∃ front, lines = front ++ ['\n']
  apart : Apart edge lines

theorem fromBreak_of_mem {cs : List Char} (h : '\n' ∈ cs) :
    ∃ behind, fromBreak cs = '\n' :: behind ∧ ∃ front, cs = front ++ '\n' :: behind := by
  rcases fromBreak_cases cs with ⟨behind, hrest, hcs⟩ | ⟨_, hcs⟩
  · exact ⟨behind, hrest, _, hcs⟩
  · rw [hcs] at h
    have hline := List.all_eq_true.1 List.all_takeWhile _ h
    simp at hline

theorem lastLine_skipBlankLines {front line cs : List Char} (hline : line = front ++ cs)
    (hfront : '\n' ∉ front) : Text.lastLine (skipBlankLines line cs) = Text.lastLine line := by
  fun_induction skipBlankLines line cs generalizing front with
  | case1 => rfl
  | case2 line rest ih =>
      rw [@ih [] rfl (by simp), hline, lastLine_break]
  | case3 line c rest hbreak hblank ih =>
      refine @ih (front ++ [c]) (by simp [hline]) ?_
      simp [hfront, Ne.symm hbreak]
  | case4 => rfl

theorem lastLine_withoutBlankLines (cs : List Char) :
    Text.lastLine (withoutBlankLines cs) = Text.lastLine cs :=
  @lastLine_skipBlankLines [] cs cs rfl (by simp)

section
variable {edge edge' : Edge} {column : Nat} {lead : String}

theorem tailAt_lineTail (h : LeadAt edge column lead.toList) : TailAt edge (lineTail lead) := by
  refine ⟨isTrivia_lineTail (by rw [IsTrivia, h.closed]; rfl), ?_⟩
  unfold lineTail
  simp only
  split_ifs
  · have hsplit := List.takeWhile_append_dropWhile (p := (· != '\n')) (l := lead.toList)
    have hapart := h.apart
    rw [← hsplit] at hapart
    exact hapart.of_append
  · exact fun _ => by simp

theorem linesAt_leadingLines (h : LeadAt edge column lead.toList) :
    LinesAt edge (leadingLines lead) := by
  have htrivia : IsTrivia lead.toList := by rw [IsTrivia, h.closed]; rfl
  have hclosed := isTrivia_leadingLines htrivia
  unfold leadingLines at hclosed ⊢
  cases hsplit : Text.splitLast '\n' lead.toList with
  | none =>
      have hstart : edge = .start :=
        Decidable.byContradiction fun hedge => Text.not_mem_of_splitLast hsplit (h.line hedge)
      exact ⟨rfl, .inl ⟨rfl, hstart⟩, fun _ => by simp⟩
  | some parts =>
      obtain ⟨front, behind⟩ := parts
      rw [hsplit] at hclosed
      refine ⟨hclosed, .inr ⟨front, rfl⟩, ?_⟩
      have hapart := h.apart
      rw [Text.splitLast_eq_some hsplit, List.append_cons] at hapart
      exact hapart.of_append

theorem leadAt_tail {comment : List Char} (h : LeadAt edge column lead.toList)
    (hbreak : '\n' ∈ lead.toList) (hcomment : TailAt edge' comment) :
    LeadAt edge' column ((Carry.tail comment).onto lead).toList := by
  obtain ⟨behind, hrest, front, hlead⟩ := fromBreak_of_mem hbreak
  obtain ⟨inside, hinside⟩ := Option.isSome_iff_exists.1 hcomment.trivia
  rw [Carry.onto, String.toList_ofList, hrest]
  rw [hlead] at h
  refine h.of_lastLine (by rw [lastLine_break, lastLine_break]) ?_ (fun _ => by simp)
    (hcomment.apart.append fun _ => apart_break edge' behind)
  rw [commentBehind_append, hinside, Option.bind_some, commentBehind_break]
  exact h.closed_behind

theorem leadAt_lines {lines : List Char} (h : LeadAt edge column lead.toList)
    (hbreak : '\n' ∈ lead.toList) (hlines : LinesAt edge' lines) :
    LeadAt edge' column ((Carry.leading lines).onto lead).toList := by
  obtain ⟨behind, hrest, front, hlead⟩ := fromBreak_of_mem hbreak
  rw [Carry.onto, String.toList_ofList, hrest]
  rw [hlead] at h
  refine h.of_lastLine ?_ ?_ (fun hedge => ?_) ?_
  · -- The lines end with a line feed, or there are none.
    rw [List.drop_one, List.tail_cons, lastLine_break]
    rcases hlines.whole with ⟨hnone, _⟩ | ⟨whole, hwhole⟩
    · rw [hnone, List.nil_append, lastLine_withoutBlankLines]
    · rw [hwhole, List.append_assoc, List.singleton_append, lastLine_break,
        lastLine_withoutBlankLines]
  · rw [commentBehind_append, hlines.closed]
    exact commentBehind_skipBlankLines h.closed_behind h.closed_behind
  · obtain ⟨whole, hwhole⟩ := hlines.whole.resolve_left fun hnone => hedge hnone.2
    simp [hwhole]
  · refine hlines.apart.append fun hnil => ?_
    rcases hlines.whole with ⟨_, rfl⟩ | ⟨whole, hwhole⟩
    · rintro ⟨⟩
    · simp [hwhole] at hnil

theorem endAt_tail {comment : List Char} (h : EndAt edge lead.toList)
    (hcomment : TailAt edge' comment) : EndAt edge' ((Carry.tail comment).onto lead).toList := by
  refine ⟨isTrivia_onto hcomment.trivia h.trivia, ?_⟩
  rw [Carry.onto, String.toList_ofList]
  refine hcomment.apart.append fun _ => ?_
  rcases fromBreak_cases lead.toList with ⟨behind, hrest, _⟩ | ⟨hnil, _⟩
  · rw [hrest]
    exact apart_break edge' behind
  · rw [hnil]
    exact fun _ => by simp

end

/-! ### The entries of a mapping -/

/-- What stays of some entries ends in the old edge, or leaves a comment for it. -/
def Passed : Option Carry → Edge → Edge → Prop
  | none, behind, behind' => behind' = behind
  | some (.tail comment), _, behind' => TailAt behind' comment
  | some (.leading _), _, _ => False

/-- What is kept of a mapping so far is laid out, and what was left leads on to the next entry: to
where the kept ones end, or to the start of the mapping if there are none. -/
inductive Progress.Laid (p : Progress) (front : Edge) (column : Nat) (behind : Edge) : Prop where
  | first {lines : List Char} (hkept : p.kept = []) (hcarry : p.carry? = some (.leading lines))
      (hlines : LinesAt front lines) (hbehind : behind ≠ .start)
  | later {behind' : Edge} (h : Yaml.Laid front column p.kept behind')
      (hpassed : Passed p.carry? behind behind') (hbehind : p.carry? ≠ none → behind ≠ .start)
      (hkept : p.carry? ≠ none → p.kept ≠ [])

section
variable {p : Progress} {front behind last : Edge} {column : Nat} {entry : Node}
  (hp : p.Laid front column behind) (hlead : LeadAt behind column entry.lead.toList)
  (hlast : last ≠ .start)
include hp hlead hlast

theorem Progress.Laid.delete : (p.delete entry).Laid front column last := by
  cases hp with
  | @first lines hkept hcarry hlines =>
      exact .first hkept (by simp [Progress.delete, hcarry]) hlines hlast
  | @later behind' h hpassed hbehind hkept =>
      cases hcarry : p.carry? with
      | some carry =>
          have hsome : p.carry? ≠ none := by simp [hcarry]
          refine .later h ?_ (fun _ => hlast) fun _ => hkept hsome
          rw [hcarry] at hpassed
          cases carry with
          | leading lines => exact hpassed.elim
          | tail comment => simpa [Progress.delete, hcarry, Passed] using hpassed
      | none =>
          obtain rfl : behind' = behind := by rwa [hcarry] at hpassed
          by_cases hnil : p.kept = []
          · obtain rfl : front = behind' := by
              rw [hnil] at h
              cases h
              rfl
            exact .first hnil (by simp [Progress.delete, hcarry, hnil])
              (linesAt_leadingLines hlead) hlast
          · refine .later h ?_ (fun _ => hlast) fun _ => hnil
            simpa [Progress.delete, hcarry, hnil, Passed] using tailAt_lineTail hlead

theorem Progress.Laid.keep {orphan : Option Carry} {behind' : Edge}
    (hentry : EntryLaid column entry behind') (horphan : Passed orphan last behind') :
    (p.keep entry orphan).Laid front column last := by
  obtain ⟨lead, hkept, front', hfront', hlead'⟩ : ∃ lead : String,
      (p.keep entry orphan).kept = p.kept ++ [.node { entry with lead }] ∧ ∃ front',
        Yaml.Laid front column p.kept front' ∧ LeadAt front' column lead.toList := by
    cases hp with
    | @first lines hkept hcarry hlines hbehind =>
        refine ⟨(Carry.leading lines).onto entry.lead, by simp [Progress.keep, hcarry], front, ?_,
          leadAt_lines hlead (hlead.line hbehind) hlines⟩
        rw [hkept]
        exact .nil
    | @later front' h hpassed hbehind hkept =>
        cases hcarry : p.carry? with
        | none =>
            rw [hcarry] at hpassed
            refine ⟨entry.lead, by simp [Progress.keep, hcarry, eta_eq], front', h, ?_⟩
            rw [show front' = behind from hpassed]
            exact hlead
        | some carry =>
            rw [hcarry] at hpassed
            cases carry with
            | leading lines => exact hpassed.elim
            | tail comment =>
                have hbreak := hlead.line (hbehind (by simp [hcarry]))
                exact ⟨(Carry.tail comment).onto entry.lead, by simp [Progress.keep, hcarry],
                  front', h, leadAt_tail hlead hbreak hpassed⟩
  refine .later ?_ horphan (fun _ => hlast) fun _ => by simp [hkept]
  rw [hkept]
  exact hfront'.snoc hlead' (hentry.with_lead lead)

end

/-! ### Sweeps -/

/-- What a visit makes of an entry stays laid out, if it stays at all, up to what was left at its
value. -/
structure Mended (orphan : Option Carry) (e e' : Node) : Prop where
  lead : e'.lead = e.lead
  entry : ∀ {column : Nat} {last : Edge}, EntryLaid column e last → Shaped e' →
    ∃ last', EntryLaid column e' last' ∧ Passed orphan last last'

/-- What visits make of the entries of the mapping at a path, each with what was left at its
value. -/
inductive EachEntry (M : Option Carry → Node → Node → Prop) (orphans : Orphans) (path : List Nat) :
    Nat → List Element → List Element → Prop where
  | nil {index : Nat} : EachEntry M orphans path index [] []
  | cons {index : Nat} {e e' : Node} {es es' : List Element}
      (h : M (orphans.at? (path ++ [index, 2])) e e')
      (hrest : EachEntry M orphans path (index + 1) es es') :
      EachEntry M orphans path index (.node e :: es) (.node e' :: es')

theorem sweep_laid {target : Target} {around : List Node} {orphans : Orphans} {path : List Nat}
    {index : Nat} {es es' : List Element} {below : Bool}
    (hlive : target.path.continues (keyPath around) = true)
    (h : VisitedAll target around orphans path index es es' below)
    (hmended : EachEntry Mended orphans path index es es') {p : Progress} {front behind last : Edge}
    {column : Nat} (hp : p.Laid front column behind) (hes : Yaml.Laid behind column es last) :
    (sweep target (keyPath around) orphans path index p es').Laid front column last := by
  induction h generalizing p behind with
  | nil =>
      cases hes
      exact hp
  | @cons index e e' es es' changed others h hfound hrest ih =>
      obtain ⟨behind', hlead, hentry, hes⟩ := hes.uncons
      cases hmended with
      | cons hmend hmended =>
      rw [← hmend.lead] at hlead
      by_cases hnil : target.left (leafChains around e) = []
      · rw [h.sweep_gone hlive orphans path index p es' hnil]
        exact ih hmended (hp.delete hlead hentry.ne_start) hes
      · have hshaped : Shaped e' := by
          have hstays := (h.stays hnil e'.lead).2
          rwa [eta_eq] at hstays
        obtain ⟨last', hentry', hpassed⟩ := hmend.entry hentry hshaped
        rw [h.sweep_stays hlive orphans path index p es' hnil]
        exact ih hmended (hp.keep hlead hentry.ne_start hentry' hpassed) hes

end Codemod.Recipes.Deletion
