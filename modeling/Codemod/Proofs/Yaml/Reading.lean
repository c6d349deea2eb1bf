import Codemod.Proofs.Yaml.Trivia

/-!
What the parser of entries reads, as a relation between places. It follows the parser step by step,
but for the limit that lets the parser end: the parser gives exactly what is related, as soon as
its limit reaches the end of the text.
-/

namespace Codemod.Yaml

open Codemod.Tree

/-- At a place stands a key with blanks and its colon behind it. -/
structure KeyAt (p : Place) (raw gap : List Char) (q : Place) : Prop where
  supported : unsupported? false p.ahead = none
  reads : ∃ r left, key p = .ok (raw, r) ∧ spaces r.ahead = (gap, ':' :: left) ∧
    q = (r.move gap (':' :: left)).move [':'] left

/-- Behind a colon stands a scalar, which has no text if neither the line goes on nor deeper
entries follow. -/
inductive ScalarAt (indent : Nat) (p : Place) : Node → Place → Prop where
  | inLine {blanks left raw : List Char} {q : Place} (hspaces : spaces p.ahead = (blanks, left))
      (hhere : valueIsBelow left = false) (hraw : scalarText (p.move blanks left) = .ok (raw, q)) :
      ScalarAt indent p (scalarNode blanks raw) q
  | missing {gap : List Char} {next : Place} (hbelow : valueIsBelow (spaces p.ahead).2 = true)
      (hskip : p.skip = .ok (gap, next))
      (hnone : (!next.atEnd && gap.contains '\n' && decide (indent < next.column)) = false) :
      ScalarAt indent p (scalarNode [] []) p

/-- In a column from a place on stand these entries. -/
inductive Reads : (indent : Nat) → Place → List Element → Place → Prop where
  | done {indent : Nat} {p next : Place} {lead : List Char} (hskip : p.skip = .ok (lead, next))
      (hstop : (next.atEnd || decide (next.column < indent)) = true) : Reads indent p [] p
  | scalar {indent : Nat} {p next q r s : Place} {lead key gap : List Char} {value : Node}
      {es : List Element} (hskip : p.skip = .ok (lead, next)) (hahead : next.atEnd = false)
      (hcolumn : next.column = indent) (hkey : KeyAt next key gap q)
      (hvalue : ScalarAt indent q value r) (h : Reads indent r es s) :
      Reads indent p (.node (entryNode lead key gap value) :: es) s
  | nested {indent : Nat} {p next q first r s : Place} {lead key gap below : List Char}
      {children es : List Element} (hskip : p.skip = .ok (lead, next)) (hahead : next.atEnd = false)
      (hcolumn : next.column = indent) (hkey : KeyAt next key gap q)
      (hbelow : valueIsBelow (spaces q.ahead).2 = true) (hskip' : q.skip = .ok (below, first))
      (hahead' : first.atEnd = false) (hbreak : '\n' ∈ below) (hdeeper : indent < first.column)
      (hchildren : Reads first.column q children r) (h : Reads indent r es s) :
      Reads indent p (.node (entryNode lead key gap (mappingNode children)) :: es) s

/-! ### What is passed -/

theorem KeyAt.passes {p q : Place} {raw gap : List Char} (h : KeyAt p raw gap q) :
    p.Passes (raw ++ gap ++ [':']) q := by
  obtain ⟨_, r, left, hkey, hspaces, rfl⟩ := h
  have hgap := spaces_append r.ahead
  rw [hspaces] at hgap
  exact ((passes_key hkey).trans (passes_move hgap)).trans (passes_move rfl)

theorem ScalarAt.passes {indent : Nat} {p q : Place} {value : Node}
    (h : ScalarAt indent p value q) : p.Passes value.print.toList q := by
  cases h with
  | inLine hspaces _ hraw =>
      have hblanks := spaces_append p.ahead
      rw [hspaces] at hblanks
      rw [print_scalarNode]
      exact (passes_move hblanks).trans (passes_scalarText hraw)
  | missing =>
      rw [print_scalarNode]
      exact covers_nil p

theorem Reads.covers {indent : Nat} {p q : Place} {es : List Element} (h : Reads indent p es q) :
    Covers p es q := by
  induction h with
  | done => exact covers_nil _
  | @scalar _ _ _ _ _ _ _ _ _ _ es hskip _ _ hkey hvalue _ ih =>
      have hpassed := (((passes_skip hskip).trans hkey.passes).trans hvalue.passes).trans ih
      simpa [Covers, printList_cons, Element.print, print_entryNode] using hpassed
  | nested hskip _ _ hkey _ _ _ _ _ _ _ ihchildren ih =>
      have hpassed := (((passes_skip hskip).trans hkey.passes).trans ihchildren).trans ih
      simpa [Covers, printList_cons, Element.print, print_entryNode, print_mappingNode] using
        hpassed

theorem Place.Passes.ahead_length {p q : Place} {text : List Char} (h : p.Passes text q) :
    p.ahead.length = text.length + q.ahead.length := by
  rw [h, List.length_append]

theorem ahead_lt_of_key {p next q : Place} {lead raw gap : List Char}
    (hskip : p.skip = .ok (lead, next)) (h : KeyAt next raw gap q) :
    q.ahead.length < p.ahead.length := by
  have hlead := (passes_skip hskip).ahead_length
  have hkey := h.passes.ahead_length
  simp only [List.length_append, List.length_singleton] at hkey
  omega

/-! ### The parser -/

theorem keyAt_of_entry {entries : Nat → Place → Except ParseError (List Element × Place)}
    {indent : Nat} {lead : List Char} {p r : Place} {n : Node}
    (h : entry entries indent lead p = .ok (n, r)) :
    ∃ raw gap node q, n = entryNode lead raw gap node ∧ KeyAt p raw gap q ∧
      value entries indent q = .ok (node, r) := by
  unfold entry at h
  split at h
  · cases h
  · rename_i hsupported
    obtain ⟨⟨raw, s⟩, hkey, h⟩ := bind_eq_ok.1 h
    simp only at h
    split at h
    · rename_i left hcolon
      obtain ⟨⟨node, t⟩, hvalue, h⟩ := bind_eq_ok.1 h
      cases h
      have hleft : (spaces s.ahead).2 = ':' :: left := hcolon
      have hspaces : spaces s.ahead = ((spaces s.ahead).1, ':' :: left) := Prod.ext rfl hleft
      refine ⟨raw, _, node, _, rfl, ⟨hsupported, s, left, hkey, hspaces, rfl⟩, ?_⟩
      rw [← hleft]
      exact hvalue
    · cases h

theorem entry_of_keyAt {entries : Nat → Place → Except ParseError (List Element × Place)}
    {indent : Nat} {lead raw gap : List Char} {p q r : Place} {node : Node}
    (hkey : KeyAt p raw gap q) (hvalue : value entries indent q = .ok (node, r)) :
    entry entries indent lead p = .ok (entryNode lead raw gap node, r) := by
  obtain ⟨hsupported, s, left, hread, hspaces, rfl⟩ := hkey
  rw [entry, hsupported]
  refine bind_eq_ok.2 ⟨_, hread, ?_⟩
  simp only [hspaces]
  exact bind_eq_ok.2 ⟨_, hvalue, rfl⟩

theorem value_eq_ok {entries : Nat → Place → Except ParseError (List Element × Place)}
    {indent : Nat} {p q : Place} {n : Node} :
    value entries indent p = .ok (n, q) ↔ ScalarAt indent p n q ∨
      ∃ below first children, valueIsBelow (spaces p.ahead).2 = true ∧
        p.skip = .ok (below, first) ∧ first.atEnd = false ∧ '\n' ∈ below ∧ indent < first.column ∧
          entries first.column p = .ok (children, q) ∧ n = mappingNode children := by
  constructor
  · intro h
    unfold value at h
    simp only at h
    split_ifs at h with hbelow
    · obtain ⟨⟨gap, next⟩, hskip, h⟩ := bind_eq_ok.1 h
      split_ifs at h with hnested
      · obtain ⟨⟨children, r⟩, hchildren, h⟩ := bind_eq_ok.1 h
        cases h
        simp only [Bool.and_eq_true, Bool.not_eq_true', List.contains_iff_mem,
          decide_eq_true_eq] at hnested
        obtain ⟨⟨hahead, hbreak⟩, hdeeper⟩ := hnested
        exact .inr ⟨gap, next, children, hbelow, hskip, hahead, hbreak, hdeeper, hchildren, rfl⟩
      · cases h
        exact .inl (.missing hbelow hskip (by simpa using hnested))
    · obtain ⟨⟨raw, r⟩, hraw, h⟩ := bind_eq_ok.1 h
      cases h
      exact .inl (.inLine rfl (Bool.eq_false_iff.2 hbelow) hraw)
  · unfold value
    simp only
    rintro (h | ⟨below, first, children, hbelow, hskip, hahead, hbreak, hdeeper, hchildren, rfl⟩)
    · cases h with
      | inLine hspaces hhere hraw =>
          rw [hspaces, if_neg (by simp [hhere])]
          exact bind_eq_ok.2 ⟨_, hraw, rfl⟩
      | missing hbelow hskip hnone =>
          rw [if_pos hbelow]
          refine bind_eq_ok.2 ⟨_, hskip, ?_⟩
          simp only [hnone]
          rfl
    · rw [if_pos hbelow]
      refine bind_eq_ok.2 ⟨_, hskip, ?_⟩
      rw [if_pos (by simp [hahead, hbreak, hdeeper])]
      exact bind_eq_ok.2 ⟨_, hchildren, rfl⟩

/-- Where an entry of the column lies ahead, one is read. -/
theorem Reads.ne_nil {indent : Nat} {p q next : Place} {lead : List Char} {es : List Element}
    (h : Reads indent p es q) (hskip : p.skip = .ok (lead, next)) (hahead : next.atEnd = false)
    (hcolumn : next.column = indent) : es ≠ [] := by
  cases h with
  | done hskip' hstop =>
      rw [hskip] at hskip'
      cases hskip'
      simp [hahead, hcolumn] at hstop
  | scalar => simp
  | nested => simp

theorem skip_of_nil {p : Place} (h : p.ahead = []) : p.skip = .ok ([], p) := by
  cases p
  cases h
  rfl

theorem reads_of_entriesWithin {limit indent : Nat} {p q : Place} {es : List Element}
    (hlimit : p.ahead.length ≤ limit) (h : entriesWithin limit indent p = .ok (es, q)) :
    Reads indent p es q := by
  induction limit generalizing indent p es q with
  | zero =>
      cases h
      have hnil : p.ahead = [] := List.length_eq_zero_iff.1 (Nat.le_zero.1 hlimit)
      exact .done (skip_of_nil hnil) (by simp [Place.atEnd, hnil])
  | succ limit ih =>
      obtain ⟨⟨lead, next⟩, hskip, h⟩ := bind_eq_ok.1 h
      simp only at h
      split_ifs at h with hstop hdeeper
      · cases h
        exact .done hskip (by simpa using hstop)
      · obtain ⟨⟨first, r⟩, hfirst, h⟩ := bind_eq_ok.1 h
        obtain ⟨⟨others, s⟩, hothers, h⟩ := bind_eq_ok.1 h
        cases h
        obtain ⟨raw, gap, node, q, rfl, hkey, hvalue⟩ := keyAt_of_entry hfirst
        simp only [Bool.or_eq_true, decide_eq_true_eq, not_or, Bool.not_eq_true] at hstop
        have hcolumn : next.column = indent := by omega
        have hshorter := ahead_lt_of_key hskip hkey
        have hrest : ∀ {text}, q.Passes text r → Reads indent r others s := fun hpasses =>
          ih (by have := hpasses.ahead_length; omega) hothers
        rcases value_eq_ok.1 hvalue with
          hscalar | ⟨below, start, children, hbelow, hskip', hahead, hbreak, hin, hchildren, rfl⟩
        · exact .scalar hskip hstop.1 hcolumn hkey hscalar (hrest hscalar.passes)
        · have hread := ih (by omega) hchildren
          exact .nested hskip hstop.1 hcolumn hkey hbelow hskip' hahead hbreak hin hread
            (hrest hread.covers)

theorem entriesWithin_of_reads {limit indent : Nat} {p q : Place} {es : List Element}
    (h : Reads indent p es q) (hlimit : p.ahead.length ≤ limit) :
    entriesWithin limit indent p = .ok (es, q) := by
  induction h generalizing limit with
  | @done indent p next lead hskip hstop =>
      cases limit with
      | zero => rfl
      | succ limit => exact bind_eq_ok.2 ⟨_, hskip, if_pos (by simpa using hstop)⟩
  | @scalar indent p next q r s lead raw gap value es hskip hahead hcolumn hkey hvalue _ ih =>
      have hshorter := ahead_lt_of_key hskip hkey
      have hpassed := hvalue.passes.ahead_length
      obtain ⟨limit, rfl⟩ := Nat.exists_eq_add_of_le' (show 1 ≤ limit by omega)
      refine bind_eq_ok.2 ⟨_, hskip, ?_⟩
      simp only
      rw [if_neg (by simp [hahead, hcolumn]), if_neg (by omega)]
      exact bind_eq_ok.2 ⟨_, entry_of_keyAt hkey (value_eq_ok.2 (.inl hvalue)),
        bind_eq_ok.2 ⟨_, ih (by omega), rfl⟩⟩
  | @nested indent p next q first r s lead raw gap below children es hskip hahead hcolumn hkey
      hbelow hskip' hahead' hbreak hdeeper hchildren _ ihchildren ih =>
      have hshorter := ahead_lt_of_key hskip hkey
      have hpassed := hchildren.covers.ahead_length
      obtain ⟨limit, rfl⟩ := Nat.exists_eq_add_of_le' (show 1 ≤ limit by omega)
      have hvalue : value (entriesWithin limit) indent q = .ok (mappingNode children, r) :=
        value_eq_ok.2 (.inr ⟨below, first, children, hbelow, hskip', hahead', hbreak, hdeeper,
          ihchildren (by omega), rfl⟩)
      refine bind_eq_ok.2 ⟨_, hskip, ?_⟩
      simp only
      rw [if_neg (by simp [hahead, hcolumn]), if_neg (by omega)]
      exact bind_eq_ok.2 ⟨_, entry_of_keyAt hkey hvalue, bind_eq_ok.2 ⟨_, ih (by omega), rfl⟩⟩

/-- A document may begin with a marker on a line of its own. -/
theorem marker_eq_ok {p q : Place} {es : List Element} :
    marker p = .ok (es, q) ↔ ∃ lead next, p.skip = .ok (lead, next) ∧
      ((next.column == 0 && startsMarker "---" next.ahead) = false ∧ es = [] ∧ q = p ∨
        (next.column == 0 && startsMarker "---" next.ahead) = true ∧
          es = [.token ⟨.punct, String.ofList lead, "---"⟩] ∧
          q = next.move ['-', '-', '-'] (next.ahead.drop 3) ∧
          ∃ gap after, q.skip = .ok (gap, after) ∧ (after.atEnd = true ∨ '\n' ∈ gap)) := by
  constructor
  · intro h
    obtain ⟨⟨lead, next⟩, hskip, h⟩ := bind_eq_ok.1 h
    simp only at h
    split_ifs at h with hmarker
    · obtain ⟨⟨gap, after⟩, hgap, h⟩ := bind_eq_ok.1 h
      simp only at h
      split_ifs at h with hcontent
      cases h
      refine ⟨lead, next, hskip, .inr ⟨hmarker, rfl, rfl, gap, after, hgap, ?_⟩⟩
      simp only [Bool.and_eq_true, Bool.not_eq_true', List.contains_eq_mem,
        decide_eq_false_iff_not] at hcontent
      by_cases hend : after.atEnd = true
      · exact .inl hend
      · exact .inr (by simpa [hend] using hcontent)
    · cases h
      exact ⟨lead, next, hskip, .inl ⟨Bool.eq_false_iff.2 hmarker, rfl, rfl⟩⟩
  · rintro ⟨lead, next, hskip, ⟨hmarker, rfl, rfl⟩ | ⟨hmarker, rfl, rfl, gap, after, hgap, hends⟩⟩
    · exact bind_eq_ok.2 ⟨_, hskip, if_neg (Bool.eq_false_iff.1 hmarker)⟩
    · refine bind_eq_ok.2 ⟨_, hskip, ?_⟩
      simp only
      rw [if_pos hmarker]
      refine bind_eq_ok.2 ⟨_, hgap, if_neg ?_⟩
      rcases hends with hends | hends <;> simp [hends]

/-- A document ends behind the trivia that is left. -/
theorem documentEnd_eq_ok {p : Place} {last : Element} :
    documentEnd p = .ok last ↔ ∃ lead next, p.skip = .ok (lead, next) ∧ next.atEnd = true ∧
      last = .token ⟨.eof, String.ofList lead, ""⟩ := by
  constructor
  · intro h
    obtain ⟨⟨lead, next⟩, hskip, h⟩ := bind_eq_ok.1 h
    simp only at h
    split_ifs at h with hend
    cases h
    exact ⟨lead, next, hskip, hend, rfl⟩
  · rintro ⟨lead, next, hskip, hend, rfl⟩
    exact bind_eq_ok.2 ⟨_, hskip, if_pos hend⟩

/-- A document has no mapping if only trivia is left, and else one that reads from the column of
its first entry. -/
theorem rootMapping_eq_ok {p q : Place} {es : List Element} :
    rootMapping p = .ok (es, q) ↔ ∃ lead next, p.skip = .ok (lead, next) ∧
      (next.atEnd = true ∧ es = [] ∧ q = p ∨
        next.atEnd = false ∧ ∃ entries, es = [.node (mappingNode entries)] ∧
          Reads next.column p entries q) := by
  constructor
  · intro h
    obtain ⟨⟨lead, next⟩, hskip, h⟩ := bind_eq_ok.1 h
    simp only at h
    split_ifs at h with hend
    · cases h
      exact ⟨lead, next, hskip, .inl ⟨hend, rfl, rfl⟩⟩
    · obtain ⟨⟨entries, r⟩, hentries, h⟩ := bind_eq_ok.1 h
      cases h
      exact ⟨lead, next, hskip, .inr ⟨by simpa using hend, entries, rfl,
        reads_of_entriesWithin (Nat.le_refl _) hentries⟩⟩
  · rintro ⟨lead, next, hskip, ⟨hend, rfl, rfl⟩ | ⟨hahead, entries, rfl, hentries⟩⟩
    · exact bind_eq_ok.2 ⟨_, hskip, if_pos hend⟩
    · refine bind_eq_ok.2 ⟨_, hskip, ?_⟩
      simp only
      rw [if_neg (by simp [hahead])]
      exact bind_eq_ok.2 ⟨_, entriesWithin_of_reads hentries (Nat.le_refl _), rfl⟩

theorem parseDocument_eq_ok {source : String} {document : Node} :
    parseDocument source = .ok document ↔ ∃ start p mapping q last,
      marker (Place.start source.toList) = .ok (start, p) ∧ rootMapping p = .ok (mapping, q) ∧
        documentEnd q = .ok last ∧
        document = { kind := .yaml .document, lead := "", children := start ++ mapping ++ [last] } := by
  constructor
  · intro h
    obtain ⟨⟨start, p⟩, hmarker, h⟩ := bind_eq_ok.1 h
    obtain ⟨⟨mapping, q⟩, hmapping, h⟩ := bind_eq_ok.1 h
    obtain ⟨last, hlast, h⟩ := bind_eq_ok.1 h
    cases h
    exact ⟨start, p, mapping, q, last, hmarker, hmapping, hlast, rfl⟩
  · rintro ⟨start, p, mapping, q, last, hmarker, hmapping, hlast, rfl⟩
    exact bind_eq_ok.2 ⟨_, hmarker, bind_eq_ok.2 ⟨_, hmapping, bind_eq_ok.2 ⟨_, hlast, rfl⟩⟩⟩

end Codemod.Yaml
