import Codemod.Proofs.Yaml.Trivia

/-!
Trivia as a property of its characters alone. What a parser makes of the trivia at a place hangs on
the last line of the trivia, which gives the column behind it, and on what stands in front of it:
there the parser asks for a new line, and a comment for a blank.
-/

namespace Codemod.Yaml

open Codemod.Tree

/-! ### Positions in a line -/

/-- What a position tells of its line. -/
def Position.inLine (p : Position) : Nat × Bool × Bool :=
  (p.column, p.onlySpaces, p.tab)

/-- The place is at the start of a line. -/
def Place.Fresh (p : Place) : Prop :=
  p.position.inLine = ({} : Position).inLine

theorem fresh_start (cs : List Char) : (Place.start cs).Fresh :=
  rfl

theorem inLine_step {p q : Position} (h : p.inLine = q.inLine) (c : Char) :
    (p.step c).inLine = (q.step c).inLine := by
  simp only [Position.inLine, Prod.mk.injEq] at h
  obtain ⟨hcolumn, hspaces, htab⟩ := h
  rw [Position.step, Position.step]
  split_ifs
  · rfl
  · simp [Position.inLine, hcolumn, hspaces, htab]

theorem inLine_pass {p q : Position} (h : p.inLine = q.inLine) (cs : List Char) :
    (p.pass cs).inLine = (q.pass cs).inLine := by
  induction cs generalizing p q with
  | nil => exact h
  | cons c cs ih => exact ih (inLine_step h c)

theorem pass_append (p : Position) (cs ds : List Char) :
    p.pass (cs ++ ds) = (p.pass cs).pass ds :=
  List.foldl_append

theorem column_lt_pass {p : Position} {cs : List Char} (hne : cs ≠ []) (hline : '\n' ∉ cs) :
    p.column < (p.pass cs).column := by
  induction cs generalizing p with
  | nil => exact absurd rfl hne
  | cons c cs ih =>
      rw [List.mem_cons, not_or] at hline
      have hstep : p.column < (p.step c).column := by
        rw [Position.step, if_neg (Ne.symm hline.1)]
        exact Nat.lt_add_of_pos_right (Char.utf8Size_pos c)
      by_cases hcs : cs = []
      · rw [hcs]
        exact hstep
      · exact Nat.lt_trans hstep (ih hcs hline.2)

theorem column_le_pass {p : Position} {cs : List Char} (hline : '\n' ∉ cs) :
    p.column ≤ (p.pass cs).column := by
  by_cases hne : cs = []
  · rw [hne]
    exact Nat.le_refl _
  · exact Nat.le_of_lt (column_lt_pass hne hline)

theorem column_pass {p : Position} {cs : List Char} (h : '\n' ∉ cs) :
    (p.pass cs).column = p.column + (String.ofList cs).utf8ByteSize := by
  induction cs generalizing p with
  | nil => rfl
  | cons c cs ih =>
      rw [List.mem_cons, not_or] at h
      rw [Position.pass, List.foldl_cons, ← Position.pass, ih h.2, Position.step,
        if_neg (Ne.symm h.1), String.ofList_cons, String.utf8ByteSize_append,
        String.utf8ByteSize_singleton, Nat.add_assoc]

theorem flags_pass {p : Position} {cs : List Char} (h : '\n' ∉ cs) :
    (p.pass cs).onlySpaces = (p.onlySpaces && cs.all isSpace) ∧
      (p.pass cs).tab = (p.tab || cs.contains '\t') := by
  induction cs generalizing p with
  | nil => simp [Position.pass]
  | cons c cs ih =>
      rw [List.mem_cons, not_or] at h
      rw [Position.pass, List.foldl_cons, ← Position.pass]
      obtain ⟨hspaces, htab⟩ := @ih (p.step c) h.2
      rw [hspaces, htab, Position.step, if_neg (Ne.symm h.1)]
      simp [Bool.and_assoc, Bool.or_assoc, eq_comm]

theorem column_spaces (p : Position) (count : Nat) :
    (p.pass (List.replicate count ' ')).column = p.column + count := by
  induction count generalizing p with
  | zero => rfl
  | succ count ih =>
      rw [List.replicate_succ, Position.pass, List.foldl_cons, ← Position.pass, ih]
      show p.column + 1 + count = _
      omega

/-! ### The last line -/

theorem lastLine_of_not_mem {cs : List Char} (h : '\n' ∉ cs) : Text.lastLine cs = cs := by
  have hall := @List.takeWhile_append_of_pos _ (· != '\n') cs.reverse [] fun c hc => by
    simpa using ne_of_mem_of_not_mem (List.mem_reverse.1 hc) h
  simpa [Text.lastLine] using congrArg List.reverse hall

theorem not_mem_lastLine (cs : List Char) : '\n' ∉ Text.lastLine cs := by
  intro h
  have hall := List.all_takeWhile (p := (· != '\n')) (l := cs.reverse)
  have hline := List.all_eq_true.1 hall '\n' (List.mem_reverse.1 h)
  simp at hline

theorem lastLine_break (front behind : List Char) :
    Text.lastLine (front ++ '\n' :: behind) = Text.lastLine behind := by
  have hreverse : (front ++ '\n' :: behind).reverse =
      behind.reverse ++ '\n' :: front.reverse := by simp
  rw [Text.lastLine, hreverse, List.takeWhile_append]
  split_ifs with hall
  · rw [Text.lastLine, List.takeWhile_cons_of_neg (by simp), List.append_nil,
      (List.takeWhile_prefix _).eq_of_length hall]
  · rfl

theorem exists_lastLine {cs : List Char} (h : '\n' ∈ cs) :
    ∃ front, cs = front ++ '\n' :: Text.lastLine cs := by
  obtain ⟨behind, front, hreverse, hlast⟩ := List.eq_append_cons_of_mem (List.mem_reverse.2 h)
  have hcs : cs = front.reverse ++ '\n' :: behind.reverse := by
    rw [← List.reverse_reverse cs, hreverse]
    simp
  refine ⟨front.reverse, ?_⟩
  rw [hcs, lastLine_break, lastLine_of_not_mem (by simpa using hlast)]

/-- Behind trivia that is closed its last line is closed. -/
theorem closed_lastLine {lead : List Char} (h : commentBehind false lead = some false) :
    commentBehind false (Text.lastLine lead) = some false := by
  by_cases hbreak : '\n' ∈ lead
  · obtain ⟨above, habove⟩ := exists_lastLine hbreak
    rw [habove, commentBehind_append] at h
    obtain ⟨comment, _, hclosed⟩ := Option.bind_eq_some_iff.1 h
    rwa [commentBehind_break] at hclosed
  · rwa [lastLine_of_not_mem hbreak]

/-- The position behind trivia, as far as it tells of its line. -/
def margin (lead : List Char) : Position :=
  ({} : Position).pass (Text.lastLine lead)

theorem inLine_lead {p : Position} {lead : List Char}
    (h : '\n' ∈ lead ∨ p.inLine = ({} : Position).inLine) :
    (p.pass lead).inLine = (margin lead).inLine := by
  by_cases hbreak : '\n' ∈ lead
  · obtain ⟨front, hlead⟩ := exists_lastLine hbreak
    have hpass : p.pass lead = ((p.pass front).step '\n').pass (Text.lastLine lead) := by
      rw [hlead, pass_append, lastLine_break, lastLine_of_not_mem (not_mem_lastLine lead)]
      rfl
    rw [hpass, margin]
    exact inLine_pass (show ((p.pass front).step '\n').inLine = ({} : Position).inLine from rfl) _
  · rw [margin, lastLine_of_not_mem hbreak]
    exact inLine_pass (h.resolve_left hbreak) lead

/-! ### Trivia between two texts -/

/-- What some trivia stands behind: the start of a document, a colon behind a quoted key, where a
comment may begin at once, or another text, which has a blank in front of a comment. -/
inductive Edge where
  | start
  | colon
  | word
deriving DecidableEq

/-- No comment begins at once where it needs a blank in front of it. -/
def Apart (edge : Edge) (cs : List Char) : Prop :=
  edge = .word → cs.head? ≠ some '#'

theorem Apart.of_append {edge : Edge} {cs ds : List Char} (h : Apart edge (cs ++ ds)) :
    Apart edge cs := by
  intro hedge hsign
  refine h hedge ?_
  rw [List.head?_append, hsign]
  rfl

theorem Apart.append {edge : Edge} {cs ds : List Char} (h : Apart edge cs)
    (hds : cs = [] → Apart edge ds) : Apart edge (cs ++ ds) := by
  cases cs with
  | nil => exact hds rfl
  | cons c cs => exact h

theorem apart_break (edge : Edge) (cs : List Char) : Apart edge ('\n' :: cs) :=
  fun _ hsign => absurd hsign (by simp)

/-- Trivia that leads to a column, in which no tab stands in front. -/
structure LeadAt (edge : Edge) (column : Nat) (lead : List Char) : Prop where
  closed : commentBehind false lead = some false
  column : (margin lead).column = column
  tab : ((margin lead).onlySpaces && (margin lead).tab) = false
  line : edge ≠ .start → '\n' ∈ lead
  apart : Apart edge lead

theorem LeadAt.starts {edge : Edge} {column : Nat} {lead : List Char} {p : Place}
    (h : LeadAt edge column lead) (hfresh : edge = .start → p.Fresh) : '\n' ∈ lead ∨ p.Fresh := by
  by_cases hedge : edge = .start
  · exact .inr (hfresh hedge)
  · exact .inl (h.line hedge)

/-- Other trivia with the same last line leads to the same column. -/
theorem LeadAt.of_lastLine {edge edge' : Edge} {column : Nat} {cs ds : List Char}
    (h : LeadAt edge column cs)
    (hlast : Text.lastLine ds = Text.lastLine cs) (hclosed : commentBehind false ds = some false)
    (hline : edge' ≠ .start → '\n' ∈ ds) (hapart : Apart edge' ds) : LeadAt edge' column ds := by
  have hmargin : margin ds = margin cs := by rw [margin, margin, hlast]
  exact ⟨hclosed, by rw [hmargin]; exact h.column, by rw [hmargin]; exact h.tab, hline, hapart⟩

theorem LeadAt.closed_behind {edge : Edge} {column : Nat} {front behind : List Char}
    (h : LeadAt edge column (front ++ '\n' :: behind)) : commentBehind false behind = some false := by
  have hclosed := h.closed
  rw [commentBehind_append] at hclosed
  obtain ⟨comment, _, hbehind⟩ := Option.bind_eq_some_iff.1 hclosed
  rwa [commentBehind_break] at hbehind

/-- Trivia at the end of a text. -/
structure EndAt (edge : Edge) (lead : List Char) : Prop where
  trivia : IsTrivia lead
  apart : Apart edge lead

theorem skip_eq_ok {p next : Place} {lead : List Char} (h : p.skip = .ok (lead, next)) :
    trivia false p.ahead = (lead, next.ahead) ∧ next = p.move lead next.ahead ∧
      (next.atEnd = false → (next.position.onlySpaces && next.position.tab) = false) := by
  simp only [Place.skip] at h
  split_ifs at h with htab
  cases h
  refine ⟨rfl, rfl, fun hahead => ?_⟩
  rw [hahead] at htab
  simpa using htab

section
variable {edge : Edge} {column : Nat} {p next : Place} {lead rest : List Char}

theorem skip_of_lead (h : LeadAt edge column lead) (hline : '\n' ∈ lead ∨ p.Fresh)
    (hahead : p.ahead = lead ++ rest) (hstops : StopsTrivia rest) :
    p.skip = .ok (lead, p.move lead rest) ∧ (p.move lead rest).column = column := by
  have htrivia : trivia false p.ahead = (lead, rest) := by
    rw [hahead]
    exact trivia_of_commentBehind h.closed hstops fun _ => rfl
  have hmargin : ((p.move lead rest).position).inLine = (margin lead).inLine := inLine_lead hline
  simp only [Position.inLine, Prod.mk.injEq] at hmargin
  obtain ⟨hcolumn, hspaces, htab⟩ := hmargin
  refine ⟨?_, hcolumn.trans h.column⟩
  simp only [Place.skip, htrivia]
  rw [Bool.and_assoc, hspaces, htab, h.tab, Bool.and_false]
  rfl

theorem lead_of_skip (edge : Edge) (h : p.skip = .ok (lead, next)) (hahead : next.atEnd = false)
    (hline : '\n' ∈ lead ∨ edge = .start ∧ p.Fresh) (hapart : Apart edge p.ahead) :
    LeadAt edge next.column lead ∧ StopsTrivia next.ahead := by
  obtain ⟨htrivia, hnext, htab⟩ := skip_eq_ok h
  obtain ⟨hstops, behind, hbehind, hclosed⟩ := commentBehind_trivia false p.ahead
  have hpasses := trivia_append false p.ahead
  rw [htrivia] at hstops hbehind hclosed hpasses
  have hne : next.ahead ≠ [] := by simpa [Place.atEnd] using hahead
  have hmargin : next.position.inLine = (margin lead).inLine := by
    rw [hnext]
    exact inLine_lead (hline.imp_right And.right)
  simp only [Position.inLine, Prod.mk.injEq] at hmargin
  obtain ⟨hcolumn, hspaces, htab'⟩ := hmargin
  refine ⟨⟨hbehind.trans (by rw [hclosed hne]), hcolumn.symm, ?_,
    fun hedge => hline.resolve_right fun h => hedge h.1, ?_⟩, hstops⟩
  · rw [← hspaces, ← htab']
    exact htab hahead
  · rw [← hpasses] at hapart
    exact hapart.of_append

theorem skip_of_end (h : EndAt edge lead) (hahead : p.ahead = lead) :
    p.skip = .ok (lead, p.move lead []) := by
  obtain ⟨behind, hbehind⟩ := Option.isSome_iff_exists.1 h.trivia
  have htrivia : trivia false p.ahead = (lead, []) := by
    rw [hahead]
    simpa using @trivia_of_commentBehind false lead [] behind hbehind trivial fun h => absurd rfl h
  simp only [Place.skip, htrivia]
  rfl

theorem end_of_skip (h : p.skip = .ok (lead, next)) (hapart : Apart edge p.ahead) :
    EndAt edge lead := by
  refine ⟨isTrivia_skip h, ?_⟩
  rw [passes_skip h] at hapart
  exact hapart.of_append

end

end Codemod.Yaml
