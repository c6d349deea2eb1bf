import Codemod.Proofs.Java.Comments
import Codemod.Proofs.Text.Parts
import Codemod.Recipes.Semicolons

/-!
The comments in the trivia that moves on where a semicolon goes. They all reach the token behind it
in their order, as long as nothing but blanks stands behind the last line feed of trivia with a
comment, and trivia that is taken over behind a comment up to the end of a line begins with a line
feed.
-/

namespace Codemod.Recipes.Semicolons

open Codemod.Tree Codemod.Java

namespace Carried

/-- What waits ends in a comment up to the end of a line. -/
def isOpen (carried : Carried) : Bool :=
  (carried.text.foldlM CommentReader.read {}).any fun r => r.state == .line

/-- No comment of the trivia is lost or runs into another one where it is taken over. -/
def keeps (carried : Carried) (trivia : String) : Bool :=
  !Text.holdsComment trivia ||
    (!carried.isOpen || trivia.toList.head? == some '\n') &&
      ((Text.splitLast '\n' trivia.toList).all fun parts => parts.2.all Text.isBlank)

/-- The comments that wait, which are closed up to the end of a line. -/
structure Holds (carried : Carried) (ks : List (List Char)) : Prop where
  text : Trivia (carried.text ++ ['\n']) ks
  indent : ∀ c ∈ carried.indent, Text.isBlank c = true

end Carried

theorem not_mem_of_splitLast_some {separator : Char} {cs front behind : List Char}
    (h : Text.splitLast separator cs = some (front, behind)) : separator ∉ behind := by
  induction cs generalizing front with
  | nil => cases h
  | cons c cs ih =>
      rw [Text.splitLast] at h
      split at h
      · rename_i front' behind' hrest
        cases h
        exact ih hrest
      · rename_i hrest
        split_ifs at h
        cases h
        exact Text.not_mem_of_splitLast hrest

theorem comments_eq_nil {cs : List Char} {ks : List (List Char)} (h : Trivia cs ks)
    (hnone : Text.opensComment cs = false) : ks = [] := by
  suffices hblank : ∀ c ∈ cs, Text.isBlank c = true by
    have hnil := Trivia.blanks hblank
    rw [Trivia, h] at hnil
    cases hnil
    rfl
  induction cs generalizing ks with
  | nil => exact List.forall_mem_nil _
  | cons c cs ih =>
      obtain ⟨r, hread, hrest⟩ := Option.bind_eq_some_iff.1 h
      simp only [CommentReader.read] at hread
      split_ifs at hread with hslash hblank <;> obtain rfl := Option.some.inj hread
      · subst hslash
        cases cs with
        | nil => cases Option.some.inj hrest
        | cons d cs =>
            obtain ⟨r, hread, _⟩ := Option.bind_eq_some_iff.1 hrest
            simp only [CommentReader.read] at hread
            split_ifs at hread with hline hblock
            · rw [hline] at hnone
              cases hnone
            · rw [hblock] at hnone
              cases hnone
      · refine List.forall_mem_cons.2 ⟨hblank, ih hrest ?_⟩
        unfold Text.opensComment at hnone
        split at hnone
        all_goals first | exact hnone | simp_all

theorem hasLineComment_lastLine {front behind : List Char} (h : '\n' ∉ behind) :
    Carried.hasLineComment (Text.lastLine (front ++ '/' :: '/' :: behind)) = true := by
  have hsign : ∀ cs : List Char, Carried.hasLineComment (cs ++ '/' :: '/' :: behind) = true := by
    intro cs
    induction cs with
    | nil => rfl
    | cons c cs ih =>
        rw [List.cons_append]
        unfold Carried.hasLineComment
        split
        · rfl
        · rename_i heq
          cases heq
          exact ih
        · rename_i heq
          cases heq
  have hbehind : ∀ c ∈ ('/' :: '/' :: behind).reverse, (c != '\n') = true := by
    intro c hc
    rw [List.mem_reverse] at hc
    rw [bne_iff_ne]
    rintro rfl
    exact h (by simpa using hc)
  rw [Text.lastLine, List.reverse_append, List.takeWhile_append_of_pos hbehind, List.reverse_append,
    List.reverse_reverse]
  exact hsign _

namespace Carried

variable {carried : Carried} {ks ls : List (List Char)}

theorem holds_of_empty (htext : carried.text = [])
    (hindent : ∀ c ∈ carried.indent, Text.isBlank c = true) : carried.Holds [] where
  text := by
    rw [htext]
    exact .lineFeed
  indent := hindent

theorem holds_empty : Holds {} [] :=
  holds_of_empty rfl nofun

theorem Holds.eq_nil (h : carried.Holds ks) (hempty : carried.text = []) : ks = [] := by
  have htext := h.text
  rw [hempty] at htext
  exact comments_eq_nil htext (by decide)

theorem Holds.closed (h : carried.Holds ks) : Trivia carried.text ks ∨ carried.isOpen = true := by
  refine h.text.of_break.imp_right ?_
  rintro ⟨r, hread, hline⟩
  rw [isOpen, hread, Option.any_some, hline]
  rfl

theorem hasLineComment_of_isOpen (h : carried.isOpen = true) :
    hasLineComment (Text.lastLine carried.text) = true := by
  obtain ⟨r, hread, hline⟩ := (Option.any_eq_true _ _).1 h
  obtain ⟨hstate, _⟩ | ⟨hstate, _⟩ | ⟨front, behind, htext, hbreak⟩ :=
    CommentReader.line_of_state hread (beq_iff_eq.1 hline)
  · cases hstate
  · cases hstate
  · rw [htext]
    exact hasLineComment_lastLine hbreak

theorem indent_take (hindent : ∀ c ∈ carried.indent, Text.isBlank c = true) {trivia : String}
    (hkeeps : carried.keeps trivia = true) :
    ∀ c ∈ (carried.take trivia).indent, Text.isBlank c = true := by
  rw [Carried.take]
  split_ifs with hcomment
  · simp only [keeps, hcomment, Bool.not_true, Bool.false_or, Bool.and_eq_true] at hkeeps
    cases hsplit : Text.splitLast '\n' trivia.toList with
    | none => exact hindent
    | some parts => simpa [hsplit] using hkeeps.2
  · exact hindent

theorem Holds.take (h : carried.Holds ks) {trivia : String} (hkeeps : carried.keeps trivia = true)
    (htrivia : Trivia trivia.toList ls) : (carried.take trivia).Holds (ks ++ ls) := by
  refine ⟨?_, indent_take h.indent hkeeps⟩
  rw [Carried.take]
  split_ifs with hcomment
  · simp only [keeps, hcomment, Bool.not_true, Bool.false_or, Bool.and_eq_true] at hkeeps
    obtain ⟨hbreak, hblank⟩ := hkeeps
    have hline : carried.isOpen = true → trivia.toList.head? = some '\n' := fun hopen => by
      simpa [hopen] using hbreak
    -- What is taken over stands behind comments that are closed, or begins on the next line.
    have hjoin : ∀ {cs : List Char},
        (carried.isOpen = true → (cs ++ ['\n']).head? = some '\n') → Trivia (cs ++ ['\n']) ls →
          Trivia (carried.text ++ cs ++ ['\n']) (ks ++ ls) := by
      intro cs hhead hcs
      rw [List.append_assoc]
      obtain hclosed | hopen := h.closed
      · exact hclosed.append hcs
      · obtain ⟨rest, hrest⟩ := List.head?_eq_some_iff.1 (hhead hopen)
        rw [hrest] at hcs ⊢
        simpa using h.text.append (.of_lineFeed hcs)
    cases hsplit : Text.splitLast '\n' trivia.toList with
    | none =>
        have hnone := Text.not_mem_of_splitLast hsplit
        refine hjoin (fun hopen => absurd ?_ hnone) ?_
        · exact List.mem_of_mem_head? (hline hopen)
        · obtain ⟨blanks, hcs, hblanks, -⟩ := Text.exists_trimRight trivia.toList
          rw [hcs] at htrivia hnone
          have hclosed := htrivia.without_blanks hblanks fun h => hnone (List.mem_append_right _ h)
          simpa using hclosed.append .lineFeed
    | some parts =>
        obtain ⟨front, behind⟩ := parts
        have hcs := Text.splitLast_eq_some hsplit
        have hbehind : ∀ c ∈ behind, Text.isBlank c = true := by simpa [hsplit] using hblank
        refine hjoin (fun hopen => ?_) ?_
        · rw [← hline hopen, hcs]
          cases front <;> rfl
        · rw [hcs, List.append_cons] at htrivia
          exact htrivia.without_blanks hbehind (not_mem_of_splitLast_some hsplit)
  · rw [comments_eq_nil htrivia (by simpa [Text.holdsComment] using hcomment), List.append_nil]
    exact h.text

theorem Holds.onto (h : carried.Holds ks) {lead : String} {rest : List Char}
    (hlead : Trivia (lead.toList ++ rest) ls) :
    Trivia ((carried.onto lead).toList ++ rest) (ks ++ ls) := by
  rw [Carried.onto]
  split_ifs with hopen
  · obtain ⟨blanks, hsplit, hblanks⟩ : ∃ blanks, lead.toList =
        blanks ++ lead.toList.dropWhile (fun c => c = ' ' || c = '\t') ∧
          ∀ c ∈ blanks, Text.isBlank c = true := by
      refine ⟨_, List.takeWhile_append_dropWhile.symm, fun c hc => ?_⟩
      obtain rfl | rfl : c = ' ' ∨ c = '\t' := by simpa using List.mem_takeWhile_imp hc
      · decide
      · decide
    rw [hsplit, List.append_assoc] at hlead
    have hrest := (Trivia.blanks h.indent).append (hlead.of_blanks hblanks)
    simpa using h.text.append hrest
  · obtain hclosed | hline := h.closed
    · simpa using hclosed.append hlead
    · simp only [hasLineComment_of_isOpen hline, Bool.true_and, bne_iff_ne, ne_eq, not_not] at hopen
      obtain ⟨cs, hcs⟩ := List.head?_eq_some_iff.1 hopen
      rw [hcs] at hlead ⊢
      simpa using h.text.append (.of_lineFeed hlead)

end Carried

end Codemod.Recipes.Semicolons
