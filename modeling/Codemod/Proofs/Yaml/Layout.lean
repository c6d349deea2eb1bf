import Codemod.Proofs.Tree.Everywhere
import Codemod.Proofs.Yaml.Pieces

/-!
The layout of documents as a property of the tree: in front of each entry stands trivia that leads
to the column of its mapping, and its key and its scalar have the form of such. Documents that are
laid out so are exactly those that parse to themselves, as long as no text runs over its line.
-/

namespace Codemod.Yaml

open Codemod.Tree

/-- What is written behind the colon of a key, unless it is a mapping: blanks and a scalar in the
line, or nothing. -/
inductive ScalarLaid (key : List Char) : Node → Edge → Prop where
  | inLine {blanks raw : List Char} (hblanks : ∀ c ∈ blanks, isSpace c = true)
      (hapart : startsQuote key = false → blanks ≠ []) (hraw : ScalarForm raw) :
      ScalarLaid key (scalarNode blanks raw) .word
  | missing : ScalarLaid key (scalarNode [] []) (colonBehind key)

/-- The entries of a mapping stand in a column, from behind one edge to the next. -/
inductive Laid : Edge → Nat → List Element → Edge → Prop where
  | nil {front : Edge} {column : Nat} : Laid front column [] front
  | scalar {front behind last : Edge} {column : Nat} {lead raw gap : List Char} {value : Node}
      {es : List Element} (hlead : LeadAt front column lead) (hkey : KeyForm raw gap)
      (hvalue : ScalarLaid raw value behind) (h : Laid behind column es last) :
      Laid front column (.node (entryNode lead raw gap value) :: es) last
  | nested {front behind last : Edge} {column below : Nat} {lead raw gap : List Char}
      {children es : List Element} (hlead : LeadAt front column lead) (hkey : KeyForm raw gap)
      (hdeeper : column < below) (hne : children ≠ [])
      (hchildren : Laid (colonBehind raw) below children behind)
      (h : Laid behind column es last) :
      Laid front column (.node (entryNode lead raw gap (mappingNode children)) :: es) last

/-! ### Edges -/

theorem colonBehind_ne_start (raw : List Char) : colonBehind raw ≠ .start := by
  rw [colonBehind]
  split_ifs <;> simp

theorem apart_colonBehind {raw cs : List Char}
    (h : startsQuote raw = false → endsIndicator cs = true) : Apart (colonBehind raw) cs := by
  intro hword hsign
  cases hquote : startsQuote raw with
  | true => simp [colonBehind, hquote] at hword
  | false =>
      have hends := h hquote
      cases cs with
      | nil => cases hsign
      | cons c cs =>
          obtain rfl : c = '#' := by simpa using hsign
          cases hends

theorem endsIndicator_of_colonBehind {raw cs : List Char} (h : EndsLine (colonBehind raw) cs)
    (hplain : startsQuote raw = false) : endsIndicator cs = true := by
  refine endsIndicator_of_endsLine ?_
  rwa [colonBehind, if_neg (by simp [hplain])] at h

theorem ScalarLaid.ne_start {key : List Char} {value : Node} {edge : Edge}
    (h : ScalarLaid key value edge) : edge ≠ .start := by
  cases h with
  | inLine => simp
  | missing => exact colonBehind_ne_start key

theorem ScalarLaid.kind {key : List Char} {value : Node} {edge : Edge}
    (h : ScalarLaid key value edge) : value.kind = .yaml .scalar := by
  cases h <;> rfl

/-- Behind an entry stands no start of a document. -/
theorem Laid.ne_start {front last : Edge} {column : Nat} {es : List Element}
    (h : Laid front column es last) (hstart : es ≠ [] ∨ front ≠ .start) : last ≠ .start := by
  induction h with
  | nil => exact hstart.resolve_left fun h => h rfl
  | scalar _ _ hvalue _ ih => exact ih (.inr hvalue.ne_start)
  | nested _ _ _ hne _ _ ihchildren ih => exact ih (.inr (ihchildren (.inl hne)))

/-! ### Entries -/

/-- An entry is laid out in a column, whatever trivia leads to it. -/
inductive EntryLaid (column : Nat) : Node → Edge → Prop where
  | scalar {behind : Edge} {lead raw gap : List Char} {value : Node} (hkey : KeyForm raw gap)
      (hvalue : ScalarLaid raw value behind) :
      EntryLaid column (entryNode lead raw gap value) behind
  | nested {behind : Edge} {below : Nat} {lead raw gap : List Char} {children : List Element}
      (hkey : KeyForm raw gap) (hdeeper : column < below) (hne : children ≠ [])
      (hchildren : Laid (colonBehind raw) below children behind) :
      EntryLaid column (entryNode lead raw gap (mappingNode children)) behind

section
variable {column : Nat} {n : Node} {behind : Edge} (h : EntryLaid column n behind)
include h

theorem EntryLaid.ne_start : behind ≠ .start := by
  cases h with
  | scalar _ hvalue => exact hvalue.ne_start
  | nested _ _ hne hchildren => exact hchildren.ne_start (.inl hne)

theorem EntryLaid.with_lead (lead : String) : EntryLaid column { n with lead } behind := by
  rw [← String.ofList_toList (s := lead)]
  cases h with
  | scalar hkey hvalue => exact .scalar hkey hvalue
  | nested hkey hdeeper hne hchildren => exact .nested hkey hdeeper hne hchildren

theorem EntryLaid.cons {front last : Edge} {es : List Element}
    (hlead : LeadAt front column n.lead.toList) (hes : Laid behind column es last) :
    Laid front column (.node n :: es) last := by
  cases h with
  | scalar hkey hvalue => exact .scalar (by simpa [entryNode] using hlead) hkey hvalue hes
  | nested hkey hdeeper hne hchildren =>
      exact .nested (by simpa [entryNode] using hlead) hkey hdeeper hne hchildren hes

end

theorem Laid.uncons {front last : Edge} {column : Nat} {n : Node} {es : List Element}
    (h : Laid front column (.node n :: es) last) :
    ∃ behind, LeadAt front column n.lead.toList ∧ EntryLaid column n behind ∧
      Laid behind column es last := by
  cases h with
  | scalar hlead hkey hvalue h =>
      exact ⟨_, by simpa [entryNode] using hlead, .scalar hkey hvalue, h⟩
  | nested hlead hkey hdeeper hne hchildren h =>
      exact ⟨_, by simpa [entryNode] using hlead, .nested hkey hdeeper hne hchildren, h⟩

theorem Laid.snoc {front behind last : Edge} {column : Nat} {n : Node} {es : List Element}
    (h : Laid front column es behind) (hlead : LeadAt behind column n.lead.toList)
    (hn : EntryLaid column n last) : Laid front column (es ++ [.node n]) last := by
  induction h with
  | nil => exact hn.cons hlead .nil
  | scalar hlead' hkey hvalue _ ih => exact .scalar hlead' hkey hvalue (ih hlead hn)
  | nested hlead' hkey hdeeper hne hchildren _ _ ih =>
      exact .nested hlead' hkey hdeeper hne hchildren (ih hlead hn)

/-! ### What is read is laid out -/

/-- The tokens' texts stay in their lines. -/
def InLine (tokens : List Token) : Prop :=
  ∀ t ∈ tokens, '\n' ∉ t.text.toList

theorem InLine.entry {lead raw gap : List Char} {value : Node} {es : List Element}
    (h : InLine (Node.leavesList (.node (entryNode lead raw gap value) :: es))) :
    '\n' ∉ raw ∧ InLine value.leaves ∧ InLine (Node.leavesList es) := by
  simp only [Node.leavesList, Element.leaves, entryNode, Node.leaves] at h
  refine ⟨?_, fun t ht => h t ?_, fun t ht => h t ?_⟩
  · simpa using h ⟨.text, "", String.ofList raw⟩ (by simp)
  · simp [ht]
  · simp [ht]

theorem not_mem_blanks {blanks : List Char} (h : ∀ c ∈ blanks, isSpace c = true) :
    '\n' ∉ blanks :=
  fun hbreak => absurd (h _ hbreak) (by decide)

theorem break_of_column {p next : Place} {lead : List Char} (h : p.skip = .ok (lead, next))
    (hcolumn : next.column < p.column) : '\n' ∈ lead := by
  refine Decidable.byContradiction fun hline => ?_
  have hle := column_le_pass (p := p.position) hline
  rw [(skip_eq_ok h).2.1] at hcolumn
  exact absurd hcolumn (Nat.not_lt.2 hle)

theorem scalarLaid_of_scalarAt {indent : Nat} {p q : Place} (key : List Char) {value : Node}
    (h : ScalarAt indent p value q) (hkey : startsQuote key = false → endsIndicator p.ahead = true)
    (hlines : InLine value.leaves) :
    ∃ edge, ScalarLaid key value edge ∧ Apart edge q.ahead ∧ p.column ≤ q.column := by
  cases h with
  | @inLine blanks left raw _ hspaces hhere hraw =>
      obtain ⟨hahead, hblanks, hleft⟩ := spaces_eq_iff.1 hspaces
      obtain ⟨hform, hends, hposition⟩ := scalarForm_of_scalarText hraw hhere hleft
      refine ⟨.word, .inLine hblanks (fun hplain hnone => ?_) hform, hends.apart, ?_⟩
      · have hstops := hkey hplain
        rw [hahead, hnone, List.nil_append] at hstops
        cases left with
        | nil => cases hhere
        | cons c left =>
            have hspace : isSpace c = false := hleft c rfl
            rw [endsIndicator, hspace, Bool.false_or] at hstops
            simp [valueIsBelow, hstops] at hhere
      · have hraw : '\n' ∉ raw := by
          simpa using hlines ⟨.text, "", String.ofList raw⟩
            (by simp [scalarNode, Node.leaves, Node.leavesList, Element.leaves])
        rw [Place.column, Place.column, hposition]
        exact Nat.le_trans (column_le_pass (not_mem_blanks hblanks)) (column_le_pass hraw)
  | missing => exact ⟨_, .missing, apart_colonBehind hkey, Nat.le_refl _⟩

theorem column_of_keyAt {p q : Place} {raw gap : List Char} (h : KeyAt p raw gap q)
    (hraw : '\n' ∉ raw) : p.column < q.column := by
  obtain ⟨_, hne, hgap, hposition⟩ := h.parts
  rw [Place.column, Place.column, hposition]
  refine column_lt_pass (by simp [hne]) ?_
  have hgap' := not_mem_blanks hgap
  simp [hraw, hgap']

theorem laid_of_reads {indent : Nat} {p q : Place} {es : List Element} (h : Reads indent p es q)
    (hlines : InLine (Node.leavesList es)) {front : Edge} (hfresh : front = .start → p.Fresh)
    (hapart : Apart front p.ahead)
    (hbreak : ∀ {lead next}, p.skip = .ok (lead, next) → next.column = indent →
      '\n' ∈ lead ∨ front = .start) :
    ∃ last, Laid front indent es last ∧ Apart last q.ahead ∧
      (es ≠ [] ∨ indent < p.column → indent < q.column) := by
  induction h generalizing front with
  | done => exact ⟨front, .nil, hapart, fun h => h.resolve_left fun hne => hne rfl⟩
  | @scalar indent p next q r s lead raw gap value es hskip hahead hcolumn hkey hvalue _ ih =>
      obtain ⟨hraw, hvalueLines, hrestLines⟩ := hlines.entry
      obtain ⟨hlead, hstops⟩ := lead_of_skip front hskip hahead
        ((hbreak hskip hcolumn).imp_right fun h => ⟨h, hfresh h⟩) hapart
      obtain ⟨behind, hlaid, hbehind, hle⟩ := scalarLaid_of_scalarAt raw hvalue
        (fun hplain => (hkey.front_plain hplain).1) hvalueLines
      have hpassed : indent < r.column := by
        have hlt := column_of_keyAt hkey hraw
        omega
      obtain ⟨last, hrest, hlast, hpast⟩ := ih hrestLines (fun h => absurd h hlaid.ne_start) hbehind
        fun hskip hcolumn => .inl (break_of_column hskip (by rwa [hcolumn]))
      rw [hcolumn] at hlead
      exact ⟨last, .scalar hlead (hkey.form hstops) hlaid hrest, hlast, fun _ => hpast (.inr hpassed)⟩
  | @nested indent p next q first r s lead raw gap below children es hskip hahead hcolumn hkey _
      hskip' hahead' hbreak' hdeeper hchildren _ ihchildren ih =>
      obtain ⟨hraw, hvalueLines, hrestLines⟩ := hlines.entry
      obtain ⟨hlead, hstops⟩ := lead_of_skip front hskip hahead
        ((hbreak hskip hcolumn).imp_right fun h => ⟨h, hfresh h⟩) hapart
      have hchildrenLines : InLine (Node.leavesList children) := by
        simpa [mappingNode, Node.leaves] using hvalueLines
      obtain ⟨behind, hlaid, hbehind, hinner⟩ := ihchildren hchildrenLines
        (fun h => absurd h (colonBehind_ne_start raw))
        (apart_colonBehind fun hplain => (hkey.front_plain hplain).1)
        fun hskip _ => .inl (by rw [hskip'] at hskip; cases hskip; exact hbreak')
      have hne := hchildren.ne_nil hskip' hahead' rfl
      have hpassed : indent < r.column := Nat.lt_trans hdeeper (hinner (.inl hne))
      obtain ⟨last, hrest, hlast, hpast⟩ := ih hrestLines
        (fun h => absurd h (hlaid.ne_start (.inl hne))) hbehind
        fun hskip hcolumn => .inl (break_of_column hskip (by rwa [hcolumn]))
      rw [hcolumn] at hlead
      exact ⟨last, .nested hlead (hkey.form hstops) hdeeper hne hlaid hrest, hlast,
        fun _ => hpast (.inr hpassed)⟩

/-! ### What is laid out is read -/

/-- What stands behind some entries: the end of the text, or an entry in a column below the bound.
-/
inductive Follows (edge : Edge) (bound : Nat) : List Char → Prop where
  | last {lead : List Char} (h : EndAt edge lead) : Follows edge bound lead
  | next {column : Nat} {lead rest : List Char} (h : LeadAt edge column lead)
      (hbreak : '\n' ∈ lead) (hcolumn : column < bound) (hstops : StopsTrivia rest)
      (hne : rest ≠ []) : Follows edge bound (lead ++ rest)

section
variable {edge : Edge} {bound : Nat} {cs : List Char} (h : Follows edge bound cs)
include h

theorem Follows.mono {bound' : Nat} (hle : bound ≤ bound') : Follows edge bound' cs := by
  cases h with
  | last h => exact .last h
  | next h hbreak hcolumn hstops hne =>
      exact .next h hbreak (Nat.lt_of_lt_of_le hcolumn hle) hstops hne

theorem Follows.endsLine : EndsLine edge cs := by
  cases h with
  | last h =>
      refine ⟨?_, h.apart⟩
      rw [← List.append_nil cs]
      exact below_of_trivia h.trivia (.inr rfl)
  | @next column lead rest h hbreak hcolumn hstops hne =>
      refine ⟨below_of_trivia (by rw [IsTrivia, h.closed]; rfl) (.inl hbreak), ?_⟩
      refine h.apart.append fun hnil => ?_
      rw [hnil] at hbreak
      cases hbreak

theorem Follows.skip {p : Place} (hahead : p.ahead = cs) :
    ∃ lead next, p.skip = .ok (lead, next) ∧ (next.atEnd || decide (next.column < bound)) = true := by
  cases h with
  | last h => exact ⟨_, _, skip_of_end h hahead, rfl⟩
  | next h hbreak hcolumn hstops hne =>
      obtain ⟨hskip, hnext⟩ := skip_of_lead h (.inl hbreak) hahead hstops
      exact ⟨_, _, hskip, by simp [hnext, hcolumn]⟩

end

theorem scalarAt_of_laid {indent : Nat} {key rest : List Char} {value : Node} {edge : Edge}
    {p : Place} (h : ScalarLaid key value edge) (hahead : p.ahead = value.print.toList ++ rest)
    (hrest : Follows edge (indent + 1) rest) :
    ∃ q, ScalarAt indent p value q ∧ q.ahead = rest := by
  have hreads : ∃ q, ScalarAt indent p value q := by
    cases h with
    | @inLine blanks raw hblanks _ hraw =>
        rw [print_scalarNode, List.append_assoc] at hahead
        obtain ⟨q, hq⟩ := hraw.reads (p := p.move blanks (raw ++ rest)) rfl hrest.endsLine
        exact ⟨q, .inLine (spaces_eq_iff.2 ⟨hahead, hblanks, hraw.solid rest⟩) (hraw.here rest) hq⟩
    | missing =>
        rw [print_scalarNode] at hahead
        obtain ⟨lead, next, hskip, hstop⟩ := hrest.skip hahead
        refine ⟨p, .missing (by rw [hahead]; exact hrest.endsLine.below) hskip ?_⟩
        simp only [Bool.or_eq_true, decide_eq_true_eq] at hstop
        rcases hstop with hend | hcolumn
        · simp [hend]
        · have hle : ¬ indent < next.column := by omega
          simp [hle]
  obtain ⟨q, hq⟩ := hreads
  have hpassed := hq.passes
  rw [Place.Passes, hahead] at hpassed
  exact ⟨q, hq, (List.append_cancel_left hpassed).symm⟩

theorem toList_printList_entry (lead raw gap : List Char) (value : Node) (es : List Element) :
    (Node.printList .sequence (.node (entryNode lead raw gap value) :: es)).toList =
      lead ++ (raw ++ (gap ++ ':' :: (value.print.toList ++ (Node.printList .sequence es).toList))) := by
  simp [printList_cons, Element.print, print_entryNode]

theorem Laid.head {front last : Edge} {column : Nat} {es : List Element}
    (h : Laid front column es last) (hne : es ≠ []) :
    ∃ lead text, (Node.printList .sequence es).toList = lead ++ text ∧ LeadAt front column lead ∧
      text ≠ [] ∧ ∀ rest, StopsTrivia (text ++ rest) := by
  have hentry : ∀ {lead raw gap value es}, LeadAt front column lead → KeyForm raw gap →
      ∃ lead' text, (Node.printList .sequence (.node (entryNode lead raw gap value) :: es)).toList =
        lead' ++ text ∧ LeadAt front column lead' ∧ text ≠ [] ∧ ∀ rest, StopsTrivia (text ++ rest) := by
    intro lead raw gap value es hlead hkey
    refine ⟨lead, _, toList_printList_entry lead raw gap value es, hlead, by simp [hkey.ne_nil],
      fun rest => ?_⟩
    rw [List.append_assoc]
    exact hkey.stops _
  cases h with
  | nil => exact absurd rfl hne
  | scalar hlead hkey => exact hentry hlead hkey
  | nested hlead hkey => exact hentry hlead hkey

section
variable {front last : Edge} {column : Nat} {es : List Element} {rest : List Char}
  (h : Laid front column es last)
include h

theorem Laid.follows (hfront : front ≠ .start) (hrest : Follows last column rest) :
    Follows front (column + 1) ((Node.printList .sequence es).toList ++ rest) := by
  by_cases hne : es = []
  · subst hne
    cases h
    exact hrest.mono (Nat.le_succ column)
  · obtain ⟨lead, text, htext, hlead, hsome, hstops⟩ := h.head hne
    rw [htext, List.append_assoc]
    exact .next hlead (hlead.line hfront) (Nat.lt_succ_self column) (hstops rest) (by simp [hsome])

theorem Laid.skip {p : Place} (hne : es ≠ []) (hfresh : front = .start → p.Fresh)
    (hahead : p.ahead = (Node.printList .sequence es).toList ++ rest) :
    ∃ lead next, p.skip = .ok (lead, next) ∧ next.atEnd = false ∧ next.column = column ∧
      (front ≠ .start → '\n' ∈ lead) := by
  obtain ⟨lead, text, htext, hlead, hsome, hstops⟩ := h.head hne
  rw [htext, List.append_assoc] at hahead
  obtain ⟨hskip, hcolumn⟩ := skip_of_lead hlead (hlead.starts hfresh) hahead (hstops rest)
  exact ⟨lead, _, hskip, by simp [Place.atEnd, Place.move, hsome], hcolumn, hlead.line⟩

end

theorem endsIndicator_of_scalarLaid {key rest : List Char} {value : Node} {edge : Edge}
    {bound : Nat} (h : ScalarLaid key value edge) (hrest : Follows edge bound rest)
    (hplain : startsQuote key = false) : endsIndicator (value.print.toList ++ rest) = true := by
  cases h with
  | @inLine blanks raw hblanks hapart _ =>
      obtain ⟨c, blanks, rfl⟩ := List.exists_cons_of_ne_nil (hapart hplain)
      have hspace := hblanks c List.mem_cons_self
      simp [print_scalarNode, endsIndicator, hspace]
  | missing =>
      rw [print_scalarNode]
      exact endsIndicator_of_colonBehind hrest.endsLine hplain

theorem keyAt_of_laid {front : Edge} {column : Nat} {lead raw gap behind : List Char} {p : Place}
    (hlead : LeadAt front column lead) (hkey : KeyForm raw gap) (hfresh : front = .start → p.Fresh)
    (hahead : p.ahead = lead ++ (raw ++ (gap ++ ':' :: behind)))
    (hends : startsQuote raw = false → endsIndicator behind = true) :
    ∃ next q, p.skip = .ok (lead, next) ∧ next.atEnd = false ∧ next.column = column ∧
      KeyAt next raw gap q ∧ q.ahead = behind := by
  obtain ⟨hskip, hcolumn⟩ := skip_of_lead hlead (hlead.starts hfresh) hahead (hkey.stops _)
  obtain ⟨q, hq⟩ := hkey.reads (p := p.move lead (raw ++ (gap ++ ':' :: behind))) rfl hends
  have hparts := hq.parts.1
  simp only [Place.move, List.append_cancel_left_eq, List.cons.injEq, true_and] at hparts
  exact ⟨_, q, hskip, by simp [Place.atEnd, Place.move, hkey.ne_nil], hcolumn, hq, hparts.symm⟩

theorem reads_of_laid {front last : Edge} {column : Nat} {es : List Element}
    (h : Laid front column es last) {p : Place} {rest : List Char}
    (hfresh : front = .start → p.Fresh)
    (hahead : p.ahead = (Node.printList .sequence es).toList ++ rest)
    (hrest : Follows last column rest) :
    ∃ q, Reads column p es q ∧ q.ahead = rest := by
  induction h generalizing p rest with
  | nil =>
      obtain ⟨lead, next, hskip, hstop⟩ := hrest.skip hahead
      exact ⟨p, .done hskip hstop, hahead⟩
  | @scalar front behind last column lead raw gap value es hlead hkey hvalue h ih =>
      have hothers := h.follows hvalue.ne_start hrest
      simp only [toList_printList_entry, List.append_assoc, List.cons_append] at hahead
      obtain ⟨next, q, hskip, hnext, hcolumn, hq, hbehind⟩ := keyAt_of_laid hlead hkey hfresh hahead
        (endsIndicator_of_scalarLaid hvalue hothers)
      obtain ⟨r, hr, hleft⟩ := scalarAt_of_laid hvalue hbehind hothers
      obtain ⟨s, hs, hend⟩ := ih (fun h => absurd h hvalue.ne_start) hleft hrest
      exact ⟨s, .scalar hskip hnext hcolumn hq hr hs, hend⟩
  | @nested front behind last column below lead raw gap children es hlead hkey hdeeper hne hchildren
      h ihchildren ih =>
      have hbehind := hchildren.ne_start (.inl hne)
      have hothers := (h.follows hbehind hrest).mono hdeeper
      have hinner := (hchildren.follows (colonBehind_ne_start raw) hothers).endsLine
      simp only [toList_printList_entry, List.append_assoc, List.cons_append, print_mappingNode]
        at hahead
      obtain ⟨next, q, hskip, hnext, hcolumn, hq, hleft⟩ := keyAt_of_laid hlead hkey hfresh hahead
        (endsIndicator_of_colonBehind hinner)
      have hfresh' : colonBehind raw = .start → q.Fresh := fun h =>
        absurd h (colonBehind_ne_start raw)
      obtain ⟨lead', first, hskip', hfirst, hcolumn', hbreak⟩ := hchildren.skip hne hfresh' hleft
      obtain ⟨r, hr, hleft'⟩ := ihchildren hfresh' hleft hothers
      obtain ⟨s, hs, hend⟩ := ih (fun h => absurd h hbehind) hleft' hrest
      rw [← hcolumn'] at hr hdeeper
      exact ⟨s, .nested hskip hnext hcolumn hq (by rw [hleft]; exact hinner.below) hskip' hfirst
        (hbreak (colonBehind_ne_start raw)) hdeeper hr hs, hend⟩

/-! ### Documents -/

/-- A document may begin with a marker on a line of its own. -/
inductive MarkerLaid : List Element → Edge → Prop where
  | none : MarkerLaid [] .start
  | marked {lead : List Char} (h : LeadAt .start 0 lead) :
      MarkerLaid [.token ⟨.punct, String.ofList lead, "---"⟩] .word

theorem MarkerLaid.tokens {marker : List Element} {front : Edge} (h : MarkerLaid marker front) :
    ∀ e ∈ marker, ∃ t : Token, e = .token t ∧ t.kind = .punct := by
  cases h <;> simp

/-- A document has a mapping with entries, or none. -/
inductive MappingLaid (front : Edge) : List Element → Edge → Prop where
  | none : MappingLaid front [] front
  | some {last : Edge} {column : Nat} {es : List Element} (hne : es ≠ [])
      (h : Laid front column es last) : MappingLaid front [.node (mappingNode es)] last

/-- A document of a marker and a mapping, which may be missing, and the trivia at its end. -/
def documentNode (marker mapping : List Element) (lead : List Char) : Node where
  kind := .yaml .document
  lead := ""
  children := marker ++ mapping ++ [.token ⟨.eof, String.ofList lead, ""⟩]

/-- A document whose parts are laid out. -/
inductive DocumentLaid : Node → Prop where
  | intro {marker mapping : List Element} {front last : Edge} {lead : List Char}
      (hmarker : MarkerLaid marker front) (hmapping : MappingLaid front mapping last)
      (hend : EndAt last lead) : DocumentLaid (documentNode marker mapping lead)

theorem print_documentNode (marker mapping : List Element) (lead : List Char) :
    (documentNode marker mapping lead).print.toList = (Node.printList .sequence marker).toList ++
      ((Node.printList .sequence mapping).toList ++ lead) := by
  show ("" ++ Node.printList .sequence (marker ++ mapping ++ [_])).toList = _
  simp [printList_append, Node.printList, Layout.delimiters, Element.print, Token.print]

theorem markerLaid_of_marker {cs : List Char} {q : Place} {es : List Element}
    (h : marker (Place.start cs) = .ok (es, q)) :
    ∃ front, MarkerLaid es front ∧ Apart front q.ahead ∧ (front = .start → q.Fresh) ∧
      ∀ {lead next}, q.skip = .ok (lead, next) → next.atEnd = false → '\n' ∈ lead ∨ front = .start := by
  obtain ⟨lead, next, hskip, ⟨_, rfl, rfl⟩ | ⟨hmarker, rfl, rfl, gap, after, hgap, hends⟩⟩ :=
    marker_eq_ok.1 h
  · exact ⟨.start, .none, by rintro ⟨⟩, fun _ => rfl, fun _ _ => .inr rfl⟩
  · simp only [Bool.and_eq_true, beq_iff_eq, startsMarker] at hmarker
    obtain ⟨hcolumn, hsign, hstops⟩ := hmarker
    have hahead : next.atEnd = false := by
      cases hnext : next.ahead with
      | nil => simp [hnext] at hsign
      | cons c cs => simp [Place.atEnd, hnext]
    obtain ⟨hlead, _⟩ := lead_of_skip .start hskip hahead (.inr ⟨rfl, rfl⟩) (by rintro ⟨⟩)
    rw [hcolumn] at hlead
    refine ⟨.word, .marked hlead, fun _ hcomment => ?_, by rintro ⟨⟩,
      fun {lead' next'} hskip' hahead' => ?_⟩
    · cases hdrop : next.ahead.drop 3 with
      | nil => simp [Place.move, hdrop] at hcomment
      | cons c cs =>
          obtain rfl : c = '#' := by simpa [Place.move, hdrop] using hcomment
          have hstops' : endsIndicator (next.ahead.drop 3) = true := hstops
          rw [hdrop] at hstops'
          cases hstops'
    · rw [hgap] at hskip'
      cases hskip'
      exact .inl (hends.resolve_left (by simp [hahead']))

/-- A document that was read is laid out, if no text in it runs over its line. -/
theorem laid_of_parseDocument {source : String} {d : Node} (h : parseDocument source = .ok d)
    (hlines : InLine d.leaves) : DocumentLaid d := by
  obtain ⟨start, p, mapping, q, last, hmarker, hmapping, hlast, rfl⟩ := parseDocument_eq_ok.1 h
  obtain ⟨lead, next, hskip, _, rfl⟩ := documentEnd_eq_ok.1 hlast
  obtain ⟨front, hstart, hapart, hfresh, hbreak⟩ := markerLaid_of_marker hmarker
  obtain ⟨behind, hlaid, hbehind⟩ : ∃ behind, MappingLaid front mapping behind ∧
      Apart behind q.ahead := by
    obtain ⟨lead', next', hskip', ⟨_, rfl, rfl⟩ | ⟨hahead, entries, rfl, hentries⟩⟩ :=
      rootMapping_eq_ok.1 hmapping
    · exact ⟨front, .none, hapart⟩
    · have hinner : InLine (Node.leavesList entries) := fun t ht => hlines t (by
        rw [Node.leaves, mem_leavesList]
        exact .inr ⟨mappingNode entries, by simp, ht⟩)
      obtain ⟨behind, hlaid, hbehind, _⟩ := laid_of_reads hentries hinner hfresh hapart
        fun hskip _ => by
          rw [hskip'] at hskip
          cases hskip
          exact hbreak hskip' hahead
      exact ⟨behind, .some (hentries.ne_nil hskip' hahead rfl) hlaid, hbehind⟩
  exact .intro hstart hlaid (end_of_skip hskip hbehind)

theorem Reads.first {indent : Nat} {p q : Place} {es : List Element} (h : Reads indent p es q)
    (hne : es ≠ []) : ∃ lead next raw gap r, p.skip = .ok (lead, next) ∧ next.atEnd = false ∧
      next.column = indent ∧ KeyAt next raw gap r := by
  cases h with
  | done => exact absurd rfl hne
  | scalar hskip hahead hcolumn hkey => exact ⟨_, _, _, _, _, hskip, hahead, hcolumn, hkey⟩
  | nested hskip hahead hcolumn hkey => exact ⟨_, _, _, _, _, hskip, hahead, hcolumn, hkey⟩

theorem startsMarker_of_keyAt {p q : Place} {raw gap : List Char} (h : KeyAt p raw gap q) :
    startsMarker "---" p.ahead = false := by
  have hsupported := h.supported
  unfold unsupported? at hsupported
  split_ifs at hsupported with hmarker
  simpa using hmarker

section
variable {front last : Edge} {mapping : List Element} {lead : List Char}
  (h : MappingLaid front mapping last) (hend : EndAt last lead)
include h hend

theorem MappingLaid.endsLine (hfront : front ≠ .start) :
    EndsLine front ((Node.printList .sequence mapping).toList ++ lead) := by
  cases h with
  | none => exact (show Follows front 0 lead from .last hend).endsLine
  | some hne h =>
      rw [printList_cons, Element.print, print_mappingNode]
      simpa [Node.printList, Layout.delimiters] using (h.follows hfront (.last hend)).endsLine

theorem MappingLaid.reads {p : Place} (hfresh : front = .start → p.Fresh)
    (hahead : p.ahead = (Node.printList .sequence mapping).toList ++ lead) :
    ∃ q, rootMapping p = .ok (mapping, q) ∧ q.ahead = lead ∧ ∃ lead' next, p.skip = .ok (lead', next) ∧
      startsMarker "---" next.ahead = false ∧ (next.atEnd = true ∨ front = .start ∨ '\n' ∈ lead') := by
  cases h with
  | none =>
      have hskip := skip_of_end hend hahead
      exact ⟨p, rootMapping_eq_ok.2 ⟨lead, _, hskip, .inl ⟨rfl, rfl, rfl⟩⟩, hahead, lead, _, hskip, rfl,
        .inl rfl⟩
  | @some last column es hne h =>
      have htext : p.ahead = (Node.printList .sequence es).toList ++ lead := by
        rw [hahead, printList_cons, Element.print, print_mappingNode]
        simp [Node.printList]
      obtain ⟨q, hreads, hq⟩ := reads_of_laid h hfresh htext (.last hend)
      obtain ⟨lead', next, hskip, hnext, hcolumn, hbreak⟩ := h.skip hne hfresh htext
      obtain ⟨lead'', next', raw, gap, r, hskip', _, _, hkey⟩ := hreads.first hne
      obtain ⟨rfl, rfl⟩ : lead' = lead'' ∧ next = next' := by simpa [hskip] using hskip'
      rw [← hcolumn] at hreads
      refine ⟨q, rootMapping_eq_ok.2 ⟨lead', next, hskip, .inr ⟨hnext, es, rfl, hreads⟩⟩, hq, lead',
        next, hskip, startsMarker_of_keyAt hkey, ?_⟩
      by_cases hfront : front = .start
      · exact .inr (.inl hfront)
      · exact .inr (.inr (hbreak hfront))

theorem MarkerLaid.reads {marker : List Element} {cs : List Char}
    (hmarker : MarkerLaid marker front) (hcs : cs = (Node.printList .sequence marker).toList ++
      ((Node.printList .sequence mapping).toList ++ lead)) :
    ∃ p q, Yaml.marker (Place.start cs) = .ok (marker, p) ∧ rootMapping p = .ok (mapping, q) ∧
      q.ahead = lead := by
  cases hmarker with
  | none =>
      have hahead : (Place.start cs).ahead = (Node.printList .sequence mapping).toList ++ lead := by
        rw [hcs]
        simp [Place.start, Node.printList]
      obtain ⟨q, hq, hleft, lead', next, hskip, hsign, _⟩ := h.reads hend (fun _ => fresh_start cs) hahead
      exact ⟨_, q, marker_eq_ok.2 ⟨lead', next, hskip, .inl ⟨by simp [hsign], rfl, rfl⟩⟩, hq, hleft⟩
  | @marked start hstart =>
      obtain ⟨text, htext⟩ : ∃ text, text = (Node.printList .sequence mapping).toList ++ lead := ⟨_, rfl⟩
      have hahead : (Place.start cs).ahead = start ++ ('-' :: '-' :: '-' :: text) := by
        rw [hcs, htext]
        simp [Place.start, Node.printList, Layout.delimiters, Element.print, Token.print]
      obtain ⟨hskip, hcolumn⟩ := skip_of_lead hstart (.inr (fresh_start cs)) hahead
        (show StopsTrivia ('-' :: _) by simp [StopsTrivia, isSpace, isBreak])
      have hends := endsIndicator_of_endsLine (h.endsLine hend (by simp))
      rw [← htext] at hends
      obtain ⟨next, hnext⟩ : ∃ next, next =
          (Place.start cs).move start ('-' :: '-' :: '-' :: text) := ⟨_, rfl⟩
      rw [← hnext] at hskip hcolumn
      obtain ⟨q, hq, hleft, gap, after, hgap, _, hline⟩ :=
        h.reads hend (p := next.move ['-', '-', '-'] text) (by simp) htext
      refine ⟨_, q, marker_eq_ok.2 ⟨start, next, hskip, .inr ⟨?_, rfl, ?_, gap, after, hgap,
        hline.imp_right fun h => h.resolve_left (by simp)⟩⟩, hq, hleft⟩
      · rw [hcolumn, hnext]
        simpa [startsMarker, Place.move] using hends
      · rw [hnext]
        rfl

end

/-- A document that is laid out is what is read of its text. -/
theorem parseDocument_of_laid {d : Node} (h : DocumentLaid d) : parseDocument d.print = .ok d := by
  obtain @⟨marker, mapping, front, last, lead, hmarker, hmapping, hend⟩ := h
  obtain ⟨p, q, hp, hq, hleft⟩ :=
    hmarker.reads hmapping hend (print_documentNode marker mapping lead)
  exact parseDocument_eq_ok.2 ⟨marker, p, mapping, q, _, hp, hq,
    documentEnd_eq_ok.2 ⟨lead, _, skip_of_end hend hleft, rfl, rfl⟩, rfl⟩

/-- Documents in which no text runs over its line are read back exactly where they are laid out. -/
theorem parseDocument_print_iff {d : Node} (hlines : InLine d.leaves) :
    parseDocument d.print = .ok d ↔ DocumentLaid d :=
  ⟨fun h => laid_of_parseDocument h hlines, parseDocument_of_laid⟩

end Codemod.Yaml
