import Codemod.Proofs.Text.Parts
import Codemod.Proofs.Yaml.Lines
import Codemod.Yaml.Entry
import Mathlib.Data.List.TakeWhile

/-!
The lines of a text that hold more than blanks, and how they change where a text is put together
from pieces. Two texts are level where the same line is open behind both and the lines of the second
are among those of the first. Of the lines that hold a comment and nothing else, a text of whole lines
keeps its own whatever is written behind it; those above the first entry of a document are its header.
-/

namespace Codemod.Yaml

open Codemod.Tree

/-- The lines of a text without the blanks behind each, and without those that hold only blanks. -/
def contentLines (cs : List Char) : List (List Char) :=
  ((Text.splitOn '\n' cs).map Text.trimRight).filter (· ≠ [])

/-- The characters in front of the first line feed. -/
def firstLine (cs : List Char) : List Char :=
  cs.takeWhile (· != '\n')

/-! ### Lines -/

theorem contentLines_break (front behind : List Char) :
    contentLines (front ++ '\n' :: behind) = contentLines front ++ contentLines behind := by
  rw [contentLines, Text.splitOn_separator, List.map_append, List.filter_append]
  rfl

@[simp] theorem contentLines_nil : contentLines [] = [] := rfl

theorem contentLines_whole (cs : List Char) : contentLines (cs ++ ['\n']) = contentLines cs := by
  rw [contentLines_break, contentLines_nil, List.append_nil]

theorem contentLines_line {line : List Char} (h : '\n' ∉ line) :
    contentLines line = [Text.trimRight line].filter (· ≠ []) := by
  rw [contentLines, Text.splitOn_of_not_mem h]
  rfl

theorem contentLines_congr {line line' : List Char} (h : '\n' ∉ line) (h' : '\n' ∉ line')
    (htrim : Text.trimRight line = Text.trimRight line') :
    contentLines line = contentLines line' := by
  rw [contentLines_line h, contentLines_line h', htrim]

theorem not_mem_firstLine (cs : List Char) : '\n' ∉ firstLine cs := by
  intro h
  simpa using List.mem_takeWhile_imp h

theorem firstLine_of_not_mem {cs : List Char} (h : '\n' ∉ cs) : firstLine cs = cs :=
  List.takeWhile_eq_self_iff.2 fun c hc => by simpa using ne_of_mem_of_not_mem hc h

theorem firstLine_append {cs : List Char} (h : '\n' ∉ cs) (rest : List Char) :
    firstLine (cs ++ rest) = cs ++ firstLine rest :=
  List.takeWhile_append_of_pos fun c hc => by simpa using ne_of_mem_of_not_mem hc h

theorem firstLine_break (cs rest : List Char) :
    firstLine (cs ++ '\n' :: rest) = firstLine cs := by
  induction cs with
  | nil => rfl
  | cons c cs ih =>
      rw [firstLine, firstLine, List.cons_append, List.takeWhile_cons, List.takeWhile_cons]
      split_ifs
      · exact congrArg (c :: ·) ih
      · rfl

theorem firstLine_append_of_mem {cs : List Char} (h : '\n' ∈ cs) (rest : List Char) :
    firstLine (cs ++ rest) = firstLine cs := by
  obtain ⟨front, hcs⟩ := exists_lastLine h
  rw [hcs, List.append_assoc, List.cons_append, firstLine_break, firstLine_break]

theorem mem_firstLine_append {c : Char} {cs : List Char} (h : c ∈ firstLine cs)
    (rest : List Char) : c ∈ firstLine (cs ++ rest) := by
  by_cases hbreak : '\n' ∈ cs
  · rwa [firstLine_append_of_mem hbreak]
  · rw [firstLine_of_not_mem hbreak] at h
    rw [firstLine_append hbreak]
    exact List.mem_append_left _ h

theorem mem_splitOn (before behind : List Char) :
    Text.lastLine before ++ firstLine behind ∈ Text.splitOn '\n' (before ++ behind) := by
  have hmem : ∀ line, '\n' ∉ line →
      line ++ firstLine behind ∈ Text.splitOn '\n' (line ++ behind) := by
    intro line hline
    by_cases hbreak : '\n' ∈ behind
    · obtain ⟨front, rest, rfl, hfront⟩ := List.eq_append_cons_of_mem hbreak
      have hwhole : '\n' ∉ line ++ front := by simp [hline, hfront]
      rw [firstLine_break, firstLine_of_not_mem hfront, ← List.append_assoc, Text.splitOn_separator,
        Text.splitOn_of_not_mem hwhole]
      exact List.mem_cons_self
    · have hwhole : '\n' ∉ line ++ behind := by simp [hline, hbreak]
      rw [firstLine_of_not_mem hbreak, Text.splitOn_of_not_mem hwhole]
      exact List.mem_cons_self
  by_cases hbreak : '\n' ∈ before
  · obtain ⟨front, hbefore⟩ := exists_lastLine hbreak
    have hsplit : before ++ behind = front ++ '\n' :: (Text.lastLine before ++ behind) := by
      rw [← List.cons_append, ← List.append_assoc, ← hbefore]
    rw [hsplit, Text.splitOn_separator]
    exact List.mem_append_right _ (hmem _ (not_mem_lastLine before))
  · rw [lastLine_of_not_mem hbreak]
    exact hmem before hbreak

theorem mem_contentLines {line cs : List Char} (h : line ∈ Text.splitOn '\n' cs)
    (hne : Text.trimRight line ≠ []) : Text.trimRight line ∈ contentLines cs :=
  List.mem_filter.2 ⟨List.mem_map_of_mem h, by simpa using hne⟩

theorem mem_trimRight {c : Char} {cs : List Char} (hc : Text.isBlank c = false) (h : c ∈ cs) :
    c ∈ Text.trimRight cs := by
  obtain ⟨blanks, hcs, hblanks, -⟩ := Text.exists_trimRight cs
  rw [hcs, List.mem_append] at h
  exact h.resolve_right (hblanks.not_mem hc)

/-! ### Whole lines -/

/-- The characters are whole lines. -/
def Whole (cs : List Char) : Prop :=
  cs = [] ∨ ∃ front, cs = front ++ ['\n']

theorem Whole.nil : Whole [] :=
  .inl rfl

theorem whole_break (front : List Char) : Whole (front ++ ['\n']) :=
  .inr ⟨front, rfl⟩

theorem Whole.append {cs ds : List Char} (h : Whole cs) (h' : Whole ds) : Whole (cs ++ ds) := by
  obtain rfl | ⟨front, rfl⟩ := h'
  · rwa [List.append_nil]
  · rw [← List.append_assoc]
    exact whole_break _

theorem Whole.contentLines {cs : List Char} (h : Whole cs) (rest : List Char) :
    contentLines (cs ++ rest) = Yaml.contentLines cs ++ Yaml.contentLines rest := by
  obtain rfl | ⟨front, rfl⟩ := h
  · rfl
  · rw [List.append_assoc, List.singleton_append, contentLines_break, contentLines_whole]

theorem Whole.lastLine {cs line : List Char} (h : Whole cs) (hline : '\n' ∉ line) :
    Text.lastLine (cs ++ line) = line := by
  obtain rfl | ⟨front, rfl⟩ := h
  · exact lastLine_of_not_mem hline
  · rw [List.append_assoc, List.singleton_append, lastLine_break, lastLine_of_not_mem hline]

theorem exists_whole (cs : List Char) :
    ∃ lines line, cs = lines ++ line ∧ Whole lines ∧ '\n' ∉ line := by
  by_cases h : '\n' ∈ cs
  · obtain ⟨front, hcs⟩ := exists_lastLine h
    refine ⟨front ++ ['\n'], Text.lastLine cs, ?_, whole_break front, not_mem_lastLine cs⟩
    rwa [List.append_assoc, List.singleton_append]
  · exact ⟨[], cs, rfl, .nil, h⟩

/-! ### Two texts -/

/-- Behind both texts the same line is open, and the whole lines of the second are among those of
the first. -/
inductive Level : List Char → List Char → Prop where
  | intro {lines lines' line : List Char} (h : Whole lines) (h' : Whole lines')
      (hline : '\n' ∉ line) (hlines : (contentLines lines').Sublist (contentLines lines)) :
      Level (lines ++ line) (lines' ++ line)

/-- The lines of the second text are among the whole lines of the first. -/
inductive Behind : List Char → List Char → Prop where
  | intro {lines line out : List Char} (h : Whole lines) (hline : '\n' ∉ line)
      (hlines : (contentLines out).Sublist (contentLines lines)) : Behind (lines ++ line) out

theorem Level.nil : Level [] [] :=
  @Level.intro [] [] [] .nil .nil (by simp) (.refl _)

namespace Level
variable {src out : List Char} (h : Level src out)
include h

theorem lastLine : Text.lastLine out = Text.lastLine src := by
  obtain @⟨lines, lines', line, hlines, hlines', hline, _⟩ := h
  rw [hlines.lastLine hline, hlines'.lastLine hline]

theorem lines : (contentLines out).Sublist (contentLines src) := by
  obtain @⟨lines, lines', line, hlines, hlines', hline, hsub⟩ := h
  rw [hlines.contentLines, hlines'.contentLines]
  exact hsub.append_right _

theorem append (cs : List Char) : Level (src ++ cs) (out ++ cs) := by
  obtain @⟨lines, lines', line, hlines, hlines', hline, hsub⟩ := h
  obtain ⟨whole, last, hcs, hwhole, hlast⟩ := exists_whole (line ++ cs)
  rw [List.append_assoc, List.append_assoc, hcs, ← List.append_assoc, ← List.append_assoc]
  refine .intro (hlines.append hwhole) (hlines'.append hwhole) hlast ?_
  rw [hlines.contentLines, hlines'.contentLines]
  exact hsub.append_right _

theorem ended {line line' : List Char} (hline : '\n' ∉ line) (hline' : '\n' ∉ line')
    (htrim : ∀ front, Text.trimRight (front ++ line') = Text.trimRight (front ++ line)) :
    Behind (src ++ line ++ ['\n']) (out ++ line') := by
  obtain @⟨lines, lines', before, hlines, hlines', hbefore, hsub⟩ := h
  have hwhole := hlines.append (whole_break (before ++ line))
  have hbehind : Behind (lines ++ (before ++ line ++ ['\n']) ++ []) (lines' ++ before ++ line') := by
    refine .intro hwhole (by simp) ?_
    rw [hlines.contentLines, contentLines_whole, List.append_assoc, hlines'.contentLines]
    rw [contentLines_congr (by simp [hbefore, hline']) (by simp [hbefore, hline]) (htrim before)]
    exact hsub.append_right _
  simpa using hbehind

end Level

namespace Behind
variable {src out : List Char} (h : Behind src out)
include h

theorem append (cs : List Char) : Behind (src ++ cs) out := by
  obtain @⟨lines, line, _, hlines, hline, hsub⟩ := h
  obtain ⟨lines', line', hcs, hlines', hline'⟩ := exists_whole (line ++ cs)
  rw [List.append_assoc, hcs, ← List.append_assoc]
  refine .intro (hlines.append hlines') hline' ?_
  rw [hlines.contentLines]
  exact hsub.trans (List.sublist_append_left _ _)

theorem lines : (contentLines out).Sublist (contentLines src) := by
  obtain @⟨lines, line, _, hlines, hline, hsub⟩ := h
  rw [hlines.contentLines]
  exact hsub.trans (List.sublist_append_left _ _)

theorem whole : Behind src (out ++ ['\n']) := by
  obtain @⟨lines, line, _, hlines, hline, hsub⟩ := h
  exact .intro hlines hline (by rwa [contentLines_whole])

theorem ended (line : List Char) : Level (src ++ line ++ ['\n']) (out ++ ['\n']) := by
  have hwhole : Level (src ++ line ++ ['\n'] ++ []) (out ++ ['\n'] ++ []) := by
    refine .intro (whole_break _) (whole_break _) (by simp) ?_
    rw [contentLines_whole, contentLines_whole]
    exact (h.append line).lines
  simpa using hwhole

theorem level (hwhole : Whole out) (line : List Char) : Level (src ++ line ++ ['\n']) out := by
  have hlevel : Level (src ++ line ++ ['\n'] ++ []) (out ++ []) := by
    refine .intro (whole_break _) hwhole (by simp) ?_
    rw [contentLines_whole]
    exact (h.append line).lines
  simpa using hlevel

end Behind

theorem Level.ended_whole {src out : List Char} (h : Level src out) (front : List Char) :
    Behind (src ++ front ++ ['\n']) (out ++ front ++ ['\n']) := by
  have hended : Behind (src ++ front ++ [] ++ ['\n']) (out ++ front ++ []) :=
    (h.append front).ended (by simp) (by simp) fun _ => rfl
  simpa using hended.whole

theorem Level.start {out : List Char} (h : Level [] out) : Behind [] out ∧ Whole out := by
  refine ⟨@Behind.intro [] [] out .nil (by simp) h.lines, ?_⟩
  generalize hsrc : [] = src at h
  obtain @⟨lines, lines', line, _, hlines', _, _⟩ := h
  obtain ⟨rfl, rfl⟩ := List.append_eq_nil_iff.1 hsrc.symm
  rwa [List.append_nil]

/-! ### Lines of comments -/

/-- The line holds a comment and nothing else but blanks in front of it. -/
def isCommentLine (line : List Char) : Bool :=
  (line.dropWhile Text.isBlank).head? == some '#'

/-- The lines of a text that hold a comment and nothing else. -/
def commentLines (cs : List Char) : List (List Char) :=
  (Text.splitOn '\n' cs).filter isCommentLine

/-! ### Lines -/

theorem commentLines_break (front behind : List Char) :
    commentLines (front ++ '\n' :: behind) = commentLines front ++ commentLines behind := by
  rw [commentLines, Text.splitOn_separator, List.filter_append]
  rfl

theorem commentLines_line {line : List Char} (h : '\n' ∉ line) (hline : isCommentLine line = false) :
    commentLines line = [] := by
  rw [commentLines, Text.splitOn_of_not_mem h]
  simp [hline]

theorem isCommentLine_blanks {line : List Char} (h : ∀ c ∈ line, Text.isBlank c = true) :
    isCommentLine line = false := by
  rw [isCommentLine, List.dropWhile_eq_nil_iff.2 h]
  rfl

theorem commentLines_of_not_mem {cs : List Char} (h : '#' ∉ cs) : commentLines cs = [] := by
  refine List.filter_eq_nil_iff.2 fun line hline hcomment => h ?_
  rw [isCommentLine, beq_iff_eq] at hcomment
  have hmem : ∀ {ds : List Char}, ∀ line ∈ Text.splitOn '\n' ds, line ⊆ ds := by
    intro ds
    induction ds with
    | nil => simp [Text.splitOn]
    | cons d ds ih =>
        intro line hline
        rw [Text.splitOn] at hline
        split_ifs at hline with hd
        · rcases List.mem_cons.1 hline with rfl | hline
          · exact List.nil_subset _
          · exact List.subset_cons_of_subset d (ih line hline)
        · obtain ⟨part, parts, hparts⟩ :=
            List.exists_cons_of_ne_nil (Text.splitOn_ne_nil '\n' ds)
          rw [hparts] at ih hline
          rcases List.mem_cons.1 hline with rfl | hline
          · exact List.cons_subset_cons d (ih part List.mem_cons_self)
          · exact List.subset_cons_of_subset d (ih line (List.mem_cons_of_mem _ hline))
  exact hmem line hline ((List.dropWhile_sublist _).subset (List.mem_of_mem_head? hcomment))

theorem commentLines_prefix {cs line : List Char} (hline : '\n' ∉ line)
    (h : isCommentLine (Text.lastLine (cs ++ line)) = false) (behind : List Char) :
    commentLines (cs ++ line) <+: commentLines (cs ++ behind) := by
  by_cases hbreak : '\n' ∈ cs
  · obtain ⟨front, hcs⟩ := exists_lastLine hbreak
    have hsplit : ∀ ds, cs ++ ds = front ++ '\n' :: (Text.lastLine cs ++ ds) := fun ds => by
      rw [← List.cons_append, ← List.append_assoc, ← hcs]
    have hlast : '\n' ∉ Text.lastLine cs ++ line := by simp [not_mem_lastLine, hline]
    rw [hsplit, lastLine_break, lastLine_of_not_mem hlast] at h
    rw [hsplit, hsplit, commentLines_break, commentLines_break, commentLines_line hlast h,
      List.append_nil]
    exact List.prefix_append _ _
  · have hlast : '\n' ∉ cs ++ line := by simp [hbreak, hline]
    rw [lastLine_of_not_mem hlast] at h
    rw [commentLines_line hlast h]
    exact List.nil_prefix

/-! ### Above the first entry -/

/-- The text of a document up to its marker. -/
def throughMarker (d : Node) : List Char :=
  (Node.printList .sequence
    (d.children.takeWhile fun e => e.token?.any fun t => t.kind == .punct)).toList

/-- The trivia in front of the first entry of a document. -/
def firstLead (d : Node) : List Char :=
  (((documentMapping? d).bind fun m => m.childNodes.head?).map fun e => e.lead.toList).getD []

/-- The text of a document above its first key. -/
def header (d : Node) : List Char :=
  throughMarker d ++ firstLead d

end Codemod.Yaml
