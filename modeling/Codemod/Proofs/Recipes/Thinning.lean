import Codemod.Proofs.Recipes.Stitching
import Codemod.Proofs.Yaml.KeyLines

/-!
The text of a document behind a deletion, as a row of pieces of which some are left out. What is
left out leaves the end of a line, or whole lines, to the next piece that stays. So each piece that
stays begins on its old line, and every line of the new text is one of the old.
-/

namespace Codemod.Recipes.Deletion

open Codemod.Tree Codemod.Yaml

/-- A scalar is left under the last entry of a chain. -/
def Target.holds (target : Target) (chain : List Node) : Bool :=
  !(target.left (leavesUnder chain)).isEmpty

/-- Trivia with what was left to it, if anything was. -/
def takesOver (carry? : Option Carry) (lead : String) : String :=
  (carry?.map fun carry => carry.onto lead).getD lead

theorem Progress.keep_takesOver (p : Progress) (e : Node) (orphan : Option Carry) :
    p.keep e orphan = ⟨p.kept ++ [.node { e with lead := takesOver p.carry? e.lead }], orphan,
      p.changed || orphan.isSome⟩ := by
  cases hcarry : p.carry? <;> simp [Progress.keep, takesOver, hcarry, eta_eq]

/-- What can be left of the trivia in front of an entry that goes. -/
inductive Leaves (lead : String) : Carry → Prop where
  | leading : Leaves lead (.leading (leadingLines lead))
  | tail : Leaves lead (.tail (lineTail lead))

/-- The pieces of the entries that hold a scalar, which take over what was left to them, and what is
left behind the last. -/
inductive Thinned (target : Target) :
    Option Carry → List Piece → List Piece → Option Carry → Prop where
  | done {carry? : Option Carry} : Thinned target carry? [] [] carry?
  | keep {carry? left? : Option Carry} {p p' : Piece} {ps ps' : List Piece}
      (hholds : target.holds p.chain = true) (hchain : p'.chain.map keyText = p.chain.map keyText)
      (hlead : p'.lead = takesOver carry? p.lead) (htext : p'.text = p.text)
      (h : Thinned target none ps ps' left?) : Thinned target carry? (p :: ps) (p' :: ps') left?
  | drop {carry? left? : Option Carry} {carry : Carry} {p : Piece} {ps ps' : List Piece}
      (hgone : target.holds p.chain = false) (hleaves : Leaves p.lead carry)
      (h : Thinned target (some (carry?.getD carry)) ps ps' left?) :
      Thinned target carry? (p :: ps) ps' left?

/-! ### Pieces of trivia -/

theorem isBlank_of_isSpace {c : Char} (h : (isSpace c || isBreak c) = true) :
    Text.isBlank c = true := by
  simp only [isSpace, isBreak, Bool.or_eq_true, decide_eq_true_eq] at h
  obtain (rfl | rfl) | (rfl | rfl) := h <;> decide

theorem blank_of_trivia {cs : List Char} (h : IsTrivia cs) (hsign : '#' ∉ cs) :
    ∀ c ∈ cs, Text.isBlank c = true := by
  induction cs with
  | nil => nofun
  | cons c cs ih =>
      rw [List.mem_cons, not_or] at hsign
      rw [IsTrivia, commentBehind] at h
      split_ifs at h with hspace hc
      · exact List.forall_mem_cons.2 ⟨isBlank_of_isSpace hspace, ih h hsign.2⟩
      · exact absurd hc.symm hsign.1
      · cases h

theorem blank_of_closed {cs : List Char} (h : commentBehind false cs = some false)
    (hline : '\n' ∉ cs) : ∀ c ∈ cs, Text.isBlank c = true :=
  fun c hc => isBlank_of_isSpace (space_of_closed h hline c hc)

theorem lineTail_cases (lead : String) :
    lineTail lead = firstLine lead.toList ∨ lineTail lead = [] ∧ '#' ∉ firstLine lead.toList := by
  unfold lineTail
  simp only
  split_ifs with hsign
  · exact .inl rfl
  · exact .inr ⟨rfl, by simpa [firstLine] using hsign⟩

theorem not_mem_lineTail (lead : String) : '\n' ∉ lineTail lead := by
  rcases lineTail_cases lead with h | ⟨h, _⟩
  · exact h ▸ not_mem_firstLine _
  · simp [h]

theorem trimRight_lineTail {lead : String} (h : IsTrivia lead.toList) (front : List Char) :
    Text.trimRight (front ++ lineTail lead) = Text.trimRight (front ++ firstLine lead.toList) := by
  rcases lineTail_cases lead with htail | ⟨htail, hsign⟩
  · rw [htail]
  · have hsplit := List.takeWhile_append_dropWhile (p := (· != '\n')) (l := lead.toList)
    rw [← hsplit] at h
    obtain ⟨comment, hline, _⟩ := isTrivia_front h
    have hblank : ∀ c ∈ firstLine lead.toList, Text.isBlank c = true :=
      blank_of_trivia (by rw [IsTrivia, firstLine, hline]; rfl) hsign
    rw [htail, List.append_nil, Text.trimRight_append _ hblank]

theorem leadingLines_cases (lead : String) :
    (∃ front behind, lead.toList = front ++ '\n' :: behind ∧ leadingLines lead = front ++ ['\n']) ∨
      '\n' ∉ lead.toList ∧ leadingLines lead = [] := by
  unfold leadingLines
  cases hsplit : Text.splitLast '\n' lead.toList with
  | none => exact .inr ⟨Text.not_mem_of_splitLast hsplit, rfl⟩
  | some parts => exact .inl ⟨parts.1, parts.2, Text.splitLast_eq_some hsplit, rfl⟩

/-- Only whole lines go from the start of a text. -/
theorem exists_blankLines (cs : List Char) :
    ∃ blanks, cs = blanks ++ withoutBlankLines cs ∧ Whole blanks := by
  have hskip : ∀ {lines : List Char} (line rest : List Char), Whole lines →
      ∃ blanks, lines ++ (line ++ rest) = blanks ++ skipBlankLines (line ++ rest) rest ∧
        Whole blanks := by
    intro lines line rest hwhole
    induction rest generalizing lines line with
    | nil => exact ⟨lines, rfl, hwhole⟩
    | cons c rest ih =>
        rw [skipBlankLines]
        split_ifs with hbreak
        · subst hbreak
          obtain ⟨blanks, hsplit, h⟩ := ih [] (hwhole.append (whole_break line))
          exact ⟨blanks, by simpa using hsplit, h⟩
        · obtain ⟨blanks, hsplit, h⟩ := ih (line ++ [c]) hwhole
          exact ⟨blanks, by simpa using hsplit, h⟩
        · exact ⟨lines, rfl, hwhole⟩
  exact hskip [] cs .nil

/-! ### What is carried on -/

/-- The characters that are left. -/
def Carry.text : Carry → List Char
  | .leading lines => lines
  | .tail comment => comment

/-- How far two texts have come: level, or the second behind the first but for what was left. Lines
that were left go on behind whole lines. -/
def Abreast (src out : List Char) : Option Carry → Prop
  | none => Level src out
  | some carry =>
      Behind src (out ++ carry.text) ∧ ∀ lines, carry = .leading lines → Whole (out ++ lines)

section
variable {src out : List Char} {carry : Carry} {carry? : Option Carry} {lead : String}

theorem text_of_blank (hblank : ∀ c ∈ lead.toList, Text.isBlank c = true)
    (hbreak : '\n' ∉ lead.toList) (h : Leaves lead carry) : carry.text = [] := by
  cases h with
  | leading =>
      obtain ⟨front, behind, hlead, _⟩ | ⟨_, hnone⟩ := leadingLines_cases lead
      · exact absurd (by simp [hlead]) hbreak
      · exact hnone
  | tail =>
      obtain hline | ⟨hnone, _⟩ := lineTail_cases lead
      · have hsign : '#' ∉ firstLine lead.toList := fun hmem =>
          absurd (hblank '#' ((List.takeWhile_sublist _).subset hmem)) (by decide)
        unfold Carry.text lineTail
        exact if_neg (by simpa [firstLine] using hsign)
      · exact hnone

theorem Abreast.drop (h : Level src out) (hclosed : commentBehind false lead.toList = some false)
    (hline : src = [] ∨ '\n' ∈ lead.toList) (hleaves : Leaves lead carry) :
    Abreast (src ++ lead.toList) out (some carry) := by
  by_cases hbreak : '\n' ∈ lead.toList
  · cases hleaves with
    | leading =>
        obtain ⟨front, behind, hlead, hlines⟩ | ⟨hnone, _⟩ := leadingLines_cases lead
        · have hbehind := (h.ended_whole front).append behind
          rw [Abreast, Carry.text, hlead, hlines]
          refine ⟨by simpa using hbehind, fun lines heq => ?_⟩
          rw [← Carry.leading.inj heq, ← List.append_assoc]
          exact whole_break _
        · exact absurd hbreak hnone
    | tail =>
        obtain ⟨behind, _, hlead⟩ | ⟨_, hlead⟩ := fromBreak_cases lead.toList
        · have hended := h.ended (not_mem_firstLine lead.toList) (not_mem_lineTail lead)
            (trimRight_lineTail (by rw [IsTrivia, hclosed]; rfl))
          rw [Abreast, Carry.text, hlead]
          exact ⟨by simpa [firstLine] using hended.append behind, by rintro _ ⟨⟩⟩
        · exact absurd (hlead ▸ hbreak) (not_mem_firstLine _)
  · -- The text starts with the entry, with blanks in front of it only.
    obtain rfl := hline.resolve_right hbreak
    have hempty := text_of_blank (blank_of_closed hclosed hbreak) hbreak hleaves
    obtain ⟨hbehind, hwhole⟩ := h.start
    refine ⟨?_, fun lines heq => ?_⟩
    · rw [hempty, List.append_nil]
      exact hbehind.append _
    · subst heq
      rw [show lines = [] from hempty, List.append_nil]
      exact hwhole

theorem Abreast.gone (h : Abreast src out (some carry)) (cs : List Char) :
    Abreast (src ++ cs) out (some carry) :=
  ⟨h.1.append cs, h.2⟩

theorem Abreast.pass (h : Abreast src out carry?)
    (hclosed : commentBehind false lead.toList = some false)
    (hline : (src = [] ∧ carry? = none) ∨ '\n' ∈ lead.toList) (hleaves : Leaves lead carry)
    (text : List Char) : Abreast (src ++ lead.toList ++ text) out (some (carry?.getD carry)) := by
  cases carry? with
  | none => exact (Abreast.drop h hclosed (hline.imp_left And.left) hleaves).gone text
  | some carry' => exact (h.gone _).gone text

theorem Abreast.keep (h : Abreast src out carry?) (hline : carry? = none ∨ '\n' ∈ lead.toList) :
    Level (src ++ lead.toList) (out ++ (takesOver carry? lead).toList) := by
  cases carry? with
  | none => exact Level.append h lead.toList
  | some carry =>
      obtain ⟨hbehind, hwhole⟩ := h
      obtain ⟨behind, hrest, front, hlead⟩ := fromBreak_of_mem (hline.resolve_left (by simp))
      rw [takesOver, Option.map_some, Option.getD_some, hlead, List.append_cons, ← List.append_assoc,
        ← List.append_assoc]
      cases carry with
      | leading lines =>
          obtain ⟨blanks, hsplit, hblanks⟩ := exists_blankLines behind
          have honto : ((Carry.leading lines).onto lead).toList =
              lines ++ withoutBlankLines behind := by
            simp [Carry.onto, hrest]
          have hbehind : Behind src (out ++ lines) := hbehind
          have hlevel : Level (src ++ front ++ ['\n'] ++ blanks) (out ++ lines) := by
            obtain rfl | ⟨line, rfl⟩ := hblanks
            · simpa using hbehind.level (hwhole lines rfl) front
            · simpa using hbehind.level (hwhole lines rfl) (front ++ '\n' :: line)
          have hrest := hlevel.append (withoutBlankLines behind)
          rwa [List.append_assoc _ blanks, ← hsplit, List.append_assoc out, ← honto] at hrest
      | tail comment =>
          have honto : ((Carry.tail comment).onto lead).toList = comment ++ '\n' :: behind := by
            simp [Carry.onto, hrest]
          have hlevel := (hbehind.ended front).append behind
          rw [honto]
          simpa [Carry.text] using hlevel

theorem Abreast.lines (h : Abreast src out carry?) (lead : String) :
    (contentLines (out ++ (takesOver carry? lead).toList)).Sublist
      (contentLines (src ++ lead.toList)) := by
  by_cases hline : carry? = none ∨ '\n' ∈ lead.toList
  · exact (h.keep hline).lines
  · rw [not_or] at hline
    obtain ⟨carry, rfl⟩ := Option.ne_none_iff_exists'.1 hline.1
    have hrest : fromBreak lead.toList = [] := by
      obtain ⟨behind, _, hlead⟩ | ⟨hrest, _⟩ := fromBreak_cases lead.toList
      · exact absurd (by rw [hlead]; simp) hline.2
      · exact hrest
    have honto : (carry.onto lead).toList = carry.text := by
      cases carry <;> simp [Carry.onto, hrest, Carry.text, withoutBlankLines, skipBlankLines]
    rw [takesOver, Option.map_some, Option.getD_some, honto]
    exact (h.1.append lead.toList).lines

end

/-! ### Rows of pieces -/

/-- Each piece begins on a line of its own, but for the first at the start of a text. -/
def Ruled (fresh : Prop) : List Piece → Prop
  | [] => True
  | p :: ps =>
      (fresh ∨ '\n' ∈ p.lead.toList) ∧ commentBehind false p.lead.toList = some false ∧
        Ruled False ps

theorem Ruled.mono {fresh fresh' : Prop} {ps : List Piece} (h : fresh → fresh')
    (hps : Ruled fresh ps) : Ruled fresh' ps := by
  cases ps with
  | nil => trivial
  | cons p ps => exact ⟨hps.1.imp_left h, hps.2⟩

/-- An entry with the text of its line, without the blanks behind it. -/
def lineView (x : List Node × List Char) : List (Option String) × List Char :=
  (x.1.map keyText, Text.trimRight x.2)

/-- What the line in front goes on with: what was left of its end, or the first line of the text
behind it. -/
def lineEnd (carry? : Option Carry) (behind : List Char) : List Char :=
  firstLine ((carry?.map Carry.text).getD behind)

@[simp] theorem lineEnd_none (behind : List Char) : lineEnd none behind = firstLine behind := rfl

@[simp] theorem lineEnd_some (carry : Carry) (behind : List Char) :
    lineEnd (some carry) behind = firstLine carry.text := rfl

theorem firstLine_leadingLines {lead : String} (h : '\n' ∈ lead.toList) :
    firstLine (leadingLines lead) = firstLine lead.toList ∧ '\n' ∈ leadingLines lead := by
  obtain ⟨front, behind, hlead, hlines⟩ | ⟨hnone, _⟩ := leadingLines_cases lead
  · rw [hlead, hlines, firstLine_break, firstLine_break]
    exact ⟨rfl, by simp⟩
  · exact absurd h hnone

/-- Lines that are left have an end. -/
def Carry.Ended (carry : Carry) : Prop :=
  ∀ lines, carry = .leading lines → '\n' ∈ lines

section
variable {carry : Carry} {carry? : Option Carry} {lead : String}

theorem Leaves.ended (h : Leaves lead carry) (hline : '\n' ∈ lead.toList) : carry.Ended := by
  cases h with
  | leading =>
      intro lines heq
      obtain rfl := Carry.leading.inj heq
      exact (firstLine_leadingLines hline).2
  | tail => nofun

theorem Leaves.trimRight (h : Leaves lead carry) (hline : '\n' ∈ lead.toList)
    (htrivia : IsTrivia lead.toList) (front : List Char) :
    Text.trimRight (front ++ firstLine carry.text) =
      Text.trimRight (front ++ firstLine lead.toList) := by
  cases h with
  | leading => rw [Carry.text, (firstLine_leadingLines hline).1]
  | tail =>
      rw [Carry.text, firstLine_of_not_mem (not_mem_lineTail lead), trimRight_lineTail htrivia]

theorem firstLine_takesOver (lead : String) (rest : List Char)
    (hended : ∀ carry ∈ carry?, carry.Ended)
    (hline : '\n' ∈ lead.toList ∨ rest = []) :
    firstLine ((takesOver carry? lead).toList ++ rest) =
      lineEnd carry? (lead.toList ++ rest) := by
  cases carry? with
  | none => rfl
  | some carry =>
      have honto : ∃ behind, (carry.onto lead).toList = carry.text ++ behind ∧
          (behind ++ rest = [] ∨ ∃ cs, behind ++ rest = '\n' :: cs ∨ '\n' ∈ carry.text) := by
        cases carry with
        | leading lines =>
            refine ⟨withoutBlankLines ((fromBreak lead.toList).drop 1), by simp [Carry.onto, Carry.text],
              .inr ⟨[], .inr (hended _ rfl lines rfl)⟩⟩
        | tail comment =>
            refine ⟨fromBreak lead.toList, by simp [Carry.onto, Carry.text], ?_⟩
            obtain ⟨behind, hrest, _⟩ | ⟨hrest, hlead⟩ := fromBreak_cases lead.toList
            · exact .inr ⟨behind ++ rest, .inl (by rw [hrest]; rfl)⟩
            · have hnone : '\n' ∉ lead.toList := hlead ▸ not_mem_firstLine lead.toList
              exact .inl (by rw [hrest, hline.resolve_left hnone]; rfl)
      obtain ⟨behind, honto, hbehind⟩ := honto
      show firstLine ((carry.onto lead).toList ++ rest) = firstLine carry.text
      rw [honto, List.append_assoc]
      obtain hnil | ⟨cs, hbreak | hmem⟩ := hbehind
      · rw [hnil, List.append_nil]
      · rw [hbreak, firstLine_break]
      · exact firstLine_append_of_mem hmem _

end

section
variable {target : Target} {carry? left? : Option Carry} {ps ps' : List Piece}
  (h : Thinned target carry? ps ps' left?)
include h

theorem Thinned.lineEnd (hruled : Ruled False ps) (hended : ∀ carry ∈ carry?, carry.Ended)
    (lead : String) (front : List Char) :
    Text.trimRight (front ++ firstLine (written ps' ++ (takesOver left? lead).toList)) =
      Text.trimRight (front ++ Deletion.lineEnd carry? (written ps ++ lead.toList)) := by
  induction h with
  | done =>
      have hend := firstLine_takesOver lead [] hended (.inr rfl)
      rw [List.append_nil, List.append_nil] at hend
      rw [show written [] = [] from rfl, List.nil_append, List.nil_append, hend]
  | @keep carry? left? p p' ps ps' _ _ hlead htext _ _ =>
      have hline := hruled.1.resolve_left id
      rw [written_cons, written_cons, hlead, List.append_assoc, List.append_assoc,
        firstLine_takesOver _ _ hended (.inl hline)]
      cases carry? with
      | none =>
          rw [lineEnd_none, lineEnd_none, firstLine_append_of_mem hline, List.append_assoc,
            firstLine_append_of_mem hline]
      | some carry => rfl
  | @drop carry? left? carry p ps ps' _ hleaves _ ih =>
      have hline := hruled.1.resolve_left id
      have hnext : ∀ carry' ∈ some (carry?.getD carry), carry'.Ended := by
        rintro _ ⟨⟩
        cases carry? with
        | none => exact hleaves.ended hline
        | some carry' => exact hended carry' rfl
      rw [ih hruled.2.2 hnext]
      cases carry? with
      | some carry' => rfl
      | none =>
          rw [Option.getD_none, lineEnd_some, lineEnd_none, written_cons, List.append_assoc,
            firstLine_append_of_mem hline]
          exact hleaves.trimRight hline (by rw [IsTrivia, hruled.2.1]; rfl) front

theorem Thinned.abreast {src out : List Char} (hruled : Ruled (src = [] ∧ carry? = none) ps)
    (habreast : Abreast src out carry?) :
    Abreast (src ++ written ps) (out ++ written ps') left? := by
  induction h generalizing src out with
  | done => simpa [written] using habreast
  | @keep carry? left? p p' ps ps' _ _ hlead htext _ ih =>
      have hlevel := habreast.keep (hruled.1.imp_left And.right)
      have hrest := ih (hruled.2.2.mono False.elim) (hlevel.append p.text)
      rw [written_cons, written_cons, hlead, htext]
      simpa using hrest
  | @drop carry? left? carry p ps ps' _ hleaves _ ih =>
      have hrest := ih (hruled.2.2.mono False.elim)
        (habreast.pass hruled.2.1 hruled.1 hleaves p.text)
      rw [written_cons]
      simpa using hrest

theorem Thinned.keyLines {src out : List Char} (hruled : Ruled (src = [] ∧ carry? = none) ps)
    (habreast : Abreast src out carry?) (lead : String) :
    (placedLines out (takesOver left? lead).toList ps').map lineView =
      ((placedLines src lead.toList ps).filter fun x => target.holds x.1).map lineView := by
  induction h generalizing src out with
  | done => rfl
  | @keep carry? left? p p' ps ps' hholds hchain hlead htext h ih =>
      have hlevel := habreast.keep (hruled.1.imp_left And.right)
      have hrest := ih (hruled.2.2.mono False.elim) (hlevel.append p.text)
      have hend : ∀ front, Text.trimRight (front ++
          firstLine (p.text ++ (written ps' ++ (takesOver left? lead).toList))) =
            Text.trimRight (front ++ firstLine (p.text ++ (written ps ++ lead.toList))) := by
        intro front
        by_cases hbreak : '\n' ∈ p.text
        · rw [firstLine_append_of_mem hbreak, firstLine_append_of_mem hbreak]
        · rw [firstLine_append hbreak, firstLine_append hbreak, ← List.append_assoc,
            ← List.append_assoc]
          exact h.lineEnd hruled.2.2 nofun lead (front ++ p.text)
      simp only [placedLines, List.filter_cons, hholds, if_true, List.map_cons, hlead, htext, hrest,
        lineView, hlevel.lastLine, hend, hchain]
  | @drop carry? left? carry p ps ps' hgone hleaves _ ih =>
      have hrest := ih (hruled.2.2.mono False.elim)
        (habreast.pass hruled.2.1 hruled.1 hleaves p.text)
      simpa [placedLines, hgone] using hrest

end

end Codemod.Recipes.Deletion
