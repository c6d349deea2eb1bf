import Codemod.Proofs.Outcome
import Codemod.Proofs.Pattern.Globs
import Codemod.Proofs.Text.Parts

/-!
How the patterns for parameters are written. A parameter is `..`, `*` or a type: the name of an element,
maybe with type arguments, then pairs of brackets and maybe an ellipsis. Reading takes these parts from the
end of the text; here they are put together from its beginning, and reading is shown to find them.
-/

namespace Codemod.Pattern

open Codemod.Text

/-! ### Spellings -/

/-- The name of an element type, which may hold asterisks. -/
structure IsElement (element : List Char) : Prop where
  nonempty : element ≠ []
  noBlank : ∀ c ∈ element, isBlank c = false
  segments : ¬ ['.', '.'] <:+: element
  noOpening : '[' ∉ element
  noClosing : ']' ∉ element

/-- The text is that of the raw type, alone or with arguments. -/
inductive Spells (raw : List Char) : List Char → Prop where
  | plain (hopen : '<' ∉ raw) (hclose : '>' ∉ raw) : Spells raw raw
  | arguments {blanks : List Char} (hopen : '<' ∉ raw) (hblanks : Blanks blanks)
      (arguments : List Char) : Spells raw (raw ++ blanks ++ '<' :: arguments ++ ['>'])

/-- So many pairs of brackets, with blanks in front of them. -/
inductive Brackets : Nat → List Char → Prop where
  | none : Brackets 0 []
  | pair {n : Nat} {cs blanks : List Char} (h : Brackets n cs) (hblanks : Blanks blanks) :
      Brackets (n + 1) (cs ++ blanks ++ ['[', ']'])

/-- What stands behind an element and adds so many dimensions to it: pairs of brackets, and an ellipsis or
none. -/
inductive Dimensions : Bool → Nat → List Char → Prop where
  | brackets {n : Nat} {cs : List Char} (h : Brackets n cs) : Dimensions false n cs
  | ellipsis {n : Nat} {cs blanks : List Char} (h : Brackets n cs) (hblanks : Blanks blanks) :
      Dimensions true (n + 1) (cs ++ blanks ++ ['.', '.', '.'])

/-- The text of a parameter, whether it ends in an ellipsis, and the pattern it is for. -/
inductive ParameterText : List Char → Bool → ParameterPattern → Prop where
  | run : ParameterText ['.', '.'] false .anyRun
  | one : ParameterText ['*'] false .anyOne
  | type {raw element behind : List Char} {ellipsis : Bool} {n : Nat} (hraw : IsElement raw)
      (helement : Spells raw element) (hbehind : Dimensions ellipsis n behind)
      (hone : element ++ behind ≠ ['*']) :
      ParameterText (element ++ behind) ellipsis (.type raw n)

/-! ### Endings -/

section
variable {raw element cs text front ending : List Char} {n limit : Nat}

theorem withoutEnding?_append (ending front : List Char) :
    withoutEnding? ending (front ++ ending) = some front := by
  have hsuffix : ending <:+ front ++ ending := List.suffix_append front ending
  rw [withoutEnding?, if_pos (List.isSuffixOf_iff_suffix.2 hsuffix), List.length_append,
    Nat.add_sub_cancel, List.take_left]

theorem withoutEnding?_eq_none : withoutEnding? ending cs = none ↔ ¬ ending <:+ cs := by
  rw [withoutEnding?, ← List.isSuffixOf_iff_suffix]
  split_ifs with h <;> simp [h]

theorem withoutEnding?_eq_some (h : withoutEnding? ending cs = some front) : cs = front ++ ending := by
  by_cases hsuffix : ending <:+ cs
  · obtain ⟨front', rfl⟩ := hsuffix
    rw [withoutEnding?_append] at h
    rw [Option.some.inj h]
  · rw [withoutEnding?_eq_none.2 hsuffix] at h
    cases h

theorem hasEmptySegment_iff : hasEmptySegment cs = true ↔ ['.', '.'] <:+: cs := by
  induction cs with
  | nil => simp [hasEmptySegment]
  | cons c cs ih =>
      rw [List.infix_cons_iff, ← ih]
      cases cs with
      | nil => simp [hasEmptySegment]
      | cons d cs =>
          by_cases hdots : c = '.' ∧ d = '.'
          · obtain ⟨rfl, rfl⟩ := hdots
            simp [hasEmptySegment]
          · have hstep : hasEmptySegment (c :: d :: cs) = hasEmptySegment (d :: cs) := by
              rw [hasEmptySegment.eq_2 _ _ fun rest hc hd =>
                hdots ⟨hc, (List.cons.inj hd).1⟩]
            have hfront : ¬ ['.', '.'] <+: c :: d :: cs := by
              simpa [List.cons_prefix_cons, eq_comm] using hdots
            rw [hstep]
            exact ⟨.inr, fun h => h.resolve_left hfront⟩

theorem isElementType_iff : isElementType cs = true ↔ IsElement cs := by
  have hsegments : hasEmptySegment cs = false ↔ ¬ ['.', '.'] <:+: cs := by
    rw [← hasEmptySegment_iff, Bool.not_eq_true]
  simp only [isElementType, Bool.and_eq_true, Bool.not_eq_true', List.isEmpty_eq_false_iff,
    List.any_eq_false, Bool.not_eq_true, hsegments, List.contains_eq_mem, decide_eq_false_iff_not]
  exact ⟨fun ⟨⟨⟨⟨h₁, h₂⟩, h₃⟩, h₄⟩, h₅⟩ => ⟨h₁, h₂, h₃, h₄, h₅⟩,
    fun ⟨h₁, h₂, h₃, h₄, h₅⟩ => ⟨⟨⟨⟨h₁, h₂⟩, h₃⟩, h₄⟩, h₅⟩⟩

theorem IsElement.bare (h : IsElement raw) : Bare raw :=
  .of_forall h.nonempty h.noBlank

theorem Brackets.length_le (h : Brackets n cs) : n ≤ cs.length := by
  induction h with
  | none => exact Nat.le_refl 0
  | pair _ _ ih =>
      simp only [List.length_append, List.length_cons, List.length_nil]
      omega

theorem Brackets.eq_nil_or_last (h : Brackets n cs) : cs = [] ∨ cs.getLast? = some ']' := by
  cases h with
  | none => exact .inl rfl
  | pair _ _ => exact .inr (by simp)

theorem Brackets.last_append (h : Brackets n cs)
    (helement : ∀ c, element.getLast? = some c → isBlank c = false ∧ c ≠ ']') :
    ∀ c, (element ++ cs).getLast? = some c → isBlank c = false := by
  intro c hc
  rcases h.eq_nil_or_last with rfl | hcs
  · rw [List.append_nil] at hc
    exact (helement c hc).1
  · rw [List.getLast?_append, hcs] at hc
    cases hc
    decide

theorem withoutBrackets_append
    (helement : ∀ c, element.getLast? = some c → isBlank c = false ∧ c ≠ ']') (h : Brackets n cs)
    (hlimit : n ≤ limit) : withoutBrackets limit (element ++ cs) = (element, n) := by
  induction h generalizing limit with
  | none =>
      rw [List.append_nil]
      cases limit with
      | zero => rfl
      | succ limit =>
          have hnone : ¬ ['[', ']'] <:+ element := by
            rintro ⟨front, hfront⟩
            exact (helement ']' (by rw [← hfront]; simp)).2 rfl
          rw [withoutBrackets, withoutEnding?_eq_none.2 hnone]
  | @pair n cs blanks h hblanks ih =>
      obtain ⟨limit, rfl⟩ := Nat.exists_eq_add_of_le' (Nat.le_of_add_left_le hlimit)
      have hrest := ih (Nat.le_of_add_le_add_right hlimit)
      rw [← List.append_assoc, ← List.append_assoc, withoutBrackets, withoutEnding?_append]
      simp only [trimRight_append _ hblanks, trimRight_self (h.last_append helement), hrest]

theorem exists_brackets (h : withoutBrackets limit text = (element, n)) :
    ∃ cs, text = element ++ cs ∧ Brackets n cs := by
  induction limit generalizing text n with
  | zero =>
      cases h
      exact ⟨[], (List.append_nil _).symm, .none⟩
  | succ limit ih =>
      rw [withoutBrackets] at h
      cases hfront : withoutEnding? ['[', ']'] text with
      | none =>
          rw [hfront] at h
          cases h
          exact ⟨[], (List.append_nil _).symm, .none⟩
      | some front =>
          rw [hfront] at h
          obtain ⟨blanks, hblank, hblanks, -⟩ := exists_trimRight front
          obtain ⟨rfl, rfl⟩ := Prod.mk.inj h
          obtain ⟨cs, hcs, hbrackets⟩ := ih (Prod.eta (withoutBrackets limit (trimRight front))).symm
          refine ⟨cs ++ blanks ++ ['[', ']'], ?_, .pair hbrackets hblanks⟩
          rw [withoutEnding?_eq_some hfront, ← List.append_assoc, ← List.append_assoc, ← hcs, ← hblank]

/-! ### Elements -/

theorem Spells.last (h : Spells raw element) (hraw : IsElement raw) {c : Char}
    (hc : element.getLast? = some c) : isBlank c = false ∧ c ≠ ']' := by
  cases h with
  | plain _ _ =>
      have hmem := List.mem_of_getLast? hc
      exact ⟨hraw.noBlank c hmem, fun hclosing => hraw.noClosing (hclosing ▸ hmem)⟩
  | arguments _ _ _ =>
      rw [List.getLast?_concat] at hc
      cases hc
      decide

theorem Spells.exists_append (h : Spells raw element) : ∃ back, element = raw ++ back := by
  cases h with
  | plain _ _ => exact ⟨[], (List.append_nil raw).symm⟩
  | arguments _ _ arguments => exact ⟨_, by rw [List.append_assoc, List.append_assoc]⟩

theorem Spells.not_ellipsis (h : Spells raw element) (hraw : IsElement raw) (hcs : Brackets n cs) :
    ¬ ['.', '.', '.'] <:+ element ++ cs := by
  rintro ⟨front, hfront⟩
  have hlast : (element ++ cs).getLast? = some '.' := by
    rw [← hfront]
    simp
  rcases hcs.eq_nil_or_last with rfl | hcs
  · rw [List.append_nil] at hfront hlast
    cases h with
    | plain _ _ => exact hraw.segments ⟨front ++ ['.'], [], by simpa using hfront⟩
    | arguments _ _ _ =>
        rw [List.getLast?_concat] at hlast
        cases hlast
  · rw [List.getLast?_append, hcs] at hlast
    cases hlast

theorem takeWhile_of_not_mem {c : Char} {front : List Char} (h : c ∉ front) (back : List Char) :
    (front ++ c :: back).takeWhile (· != c) = front := by
  have hne : ∀ d ∈ front, (d != c) = true := fun d hd => by
    rw [bne_iff_ne]
    rintro rfl
    exact h hd
  exact takeWhile_append hne (by simp)

theorem rawType_of_spells (hraw : IsElement raw) (h : Spells raw element) :
    rawType element = .ok raw := by
  cases h with
  | plain hopen hclose => simp [rawType, hopen, hclose]
  | @arguments blanks hopen hblanks arguments =>
      have hfront : '<' ∉ raw ++ blanks := by
        simpa using ⟨hopen, hblanks.not_mem (by decide)⟩
      have htake := takeWhile_of_not_mem hfront (arguments ++ ['>'])
      rw [rawType, if_pos (by simp), List.getLast?_concat, if_pos (beq_self_eq_true _), List.append_assoc,
        List.cons_append, htake, trimRight_append _ hblanks, trimRight_self hraw.bare.right]

theorem spells_of_rawType (h : rawType element = .ok raw) : Spells raw element := by
  rw [rawType] at h
  split_ifs at h with hopen hlast hclose
  · obtain ⟨front, back, rfl, hfront⟩ := List.eq_append_cons_of_mem (List.contains_iff_mem.1 hopen)
    rw [takeWhile_of_not_mem hfront] at h
    obtain ⟨blanks, hblank, hblanks, -⟩ := exists_trimRight front
    rcases List.eq_nil_or_concat back with rfl | ⟨arguments, c, rfl⟩
    · simp at hlast
    · rw [List.concat_eq_append, ← List.cons_append, ← List.append_assoc] at hlast ⊢
      rw [List.getLast?_concat] at hlast
      have hc : c = '>' := Option.some.inj (eq_of_beq hlast)
      cases h
      have hraw : '<' ∉ trimRight front := fun hmem => hfront (by
        rw [hblank]
        exact List.mem_append_left _ hmem)
      have hspells := Spells.arguments hraw hblanks arguments
      rw [← hblank] at hspells
      rwa [hc]
  · cases h
    exact .plain (by simpa using hopen) (by simpa using hclose)

/-! ### Types -/

/-- The pattern for a type that is written without an ellipsis, with some dimensions more. -/
def arrayPattern (extra : Nat) (text : List Char) : Except PatternFault ParameterPattern := do
  let (element, brackets) := withoutBrackets text.length text
  let element ← rawType element
  if isElementType element then .ok (.type element (brackets + extra))
  else .error (.invalidType (String.ofList text))

theorem typePattern_of_not_ellipsis (h : ¬ ['.', '.', '.'] <:+ text) (isLast : Bool) :
    typePattern isLast text = arrayPattern 0 text := by
  simp only [typePattern, withoutEnding?_eq_none.2 h]
  rfl

theorem typePattern_ellipsis (isLast : Bool) (front : List Char) :
    typePattern isLast (front ++ ['.', '.', '.']) =
      if isLast then arrayPattern 1 (trimRight front) else .error .ellipsisNotLast := by
  simp only [typePattern, withoutEnding?_append]
  cases isLast <;> rfl

theorem arrayPattern_append (hraw : IsElement raw) (helement : Spells raw element)
    (hcs : Brackets n cs) (extra : Nat) :
    arrayPattern extra (element ++ cs) = .ok (.type raw (n + extra)) := by
  have hlimit : n ≤ (element ++ cs).length := by
    rw [List.length_append]
    exact Nat.le_add_left_of_le hcs.length_le
  have hread := withoutBrackets_append (fun c => helement.last hraw) hcs hlimit
  simp only [arrayPattern, hread, rawType_of_spells hraw helement]
  exact if_pos (isElementType_iff.2 hraw)

theorem exists_of_arrayPattern {extra : Nat} {pattern : ParameterPattern}
    (h : arrayPattern extra text = .ok pattern) :
    ∃ raw element cs n, text = element ++ cs ∧ IsElement raw ∧ Spells raw element ∧ Brackets n cs ∧
      pattern = .type raw (n + extra) := by
  obtain ⟨raw, hraw, h⟩ := bind_eq_ok.1 h
  obtain ⟨cs, htext, hcs⟩ := exists_brackets (Prod.eta (withoutBrackets text.length text)).symm
  split_ifs at h with hvalid
  cases h
  exact ⟨raw, _, cs, _, htext, isElementType_iff.1 hvalid, spells_of_rawType hraw, hcs, rfl⟩

/-! ### Parameters -/

variable {ellipsis : Bool} {pattern : ParameterPattern}

theorem typePattern_append {behind : List Char} (hraw : IsElement raw)
    (helement : Spells raw element) (hbehind : Dimensions ellipsis n behind) (isLast : Bool) :
    typePattern isLast (element ++ behind) =
      if ellipsis && !isLast then .error .ellipsisNotLast else .ok (.type raw n) := by
  cases hbehind with
  | brackets hcs =>
      rw [typePattern_of_not_ellipsis (helement.not_ellipsis hraw hcs)]
      exact arrayPattern_append hraw helement hcs 0
  | @ellipsis n cs blanks hcs hblanks =>
      have hlast := hcs.last_append fun c => helement.last hraw
      rw [← List.append_assoc, ← List.append_assoc, typePattern_ellipsis, trimRight_append _ hblanks,
        trimRight_self hlast, arrayPattern_append hraw helement hcs]
      cases isLast <;> rfl

theorem exists_of_typePattern {isLast : Bool} (h : typePattern isLast text = .ok pattern) :
    ∃ raw element behind ellipsis n, text = element ++ behind ∧ IsElement raw ∧ Spells raw element ∧
      Dimensions ellipsis n behind ∧ pattern = .type raw n := by
  by_cases hdots : ['.', '.', '.'] <:+ text
  · obtain ⟨front, rfl⟩ := hdots
    rw [typePattern_ellipsis] at h
    split_ifs at h
    obtain ⟨raw, element, cs, n, hfront, hraw, helement, hcs, rfl⟩ := exists_of_arrayPattern h
    obtain ⟨blanks, hblank, hblanks, -⟩ := exists_trimRight front
    refine ⟨raw, element, _, true, n + 1, ?_, hraw, helement, .ellipsis hcs hblanks, rfl⟩
    rw [hblank, hfront]
    simp only [List.append_assoc]
  · rw [typePattern_of_not_ellipsis hdots] at h
    obtain ⟨raw, element, cs, n, htext, hraw, helement, hcs, rfl⟩ := exists_of_arrayPattern h
    exact ⟨raw, element, cs, false, n, htext, hraw, helement, .brackets hcs, rfl⟩

theorem ParameterText.ellipsis_iff (h : ParameterText text ellipsis pattern) :
    ellipsis = true ↔ ['.', '.', '.'] <:+ text := by
  cases h with
  | run => decide
  | one => decide
  | @type raw element behind _ n hraw helement hbehind _ =>
      cases hbehind with
      | brackets hcs => simpa using helement.not_ellipsis hraw hcs
      | ellipsis _ _ =>
          refine iff_of_true rfl ?_
          rw [← List.append_assoc]
          exact List.suffix_append _ _

theorem ParameterText.bare (h : ParameterText text ellipsis pattern) : Bare text := by
  have hdot : isBlank '.' = false := by decide
  have hasterisk : isBlank '*' = false := by decide
  cases h with
  | run => exact .of_forall (by simp) (by simp [hdot])
  | one => exact .of_forall (by simp) (by simp [hasterisk])
  | @type raw element behind _ n hraw helement hbehind _ =>
      obtain ⟨back, rfl⟩ := helement.exists_append
      have hhead : (raw ++ back ++ behind).head? = raw.head? := by
        rw [List.append_assoc, List.head?_append_of_ne_nil _ hraw.nonempty]
      refine ⟨by simp [hraw.nonempty], fun c hc => hraw.bare.left c (hhead ▸ hc), ?_⟩
      cases hbehind with
      | brackets hcs => exact hcs.last_append fun c => helement.last hraw
      | ellipsis _ _ =>
          rintro c hc
          rw [← List.append_assoc, List.getLast?_append] at hc
          cases hc
          decide

theorem Dimensions.append_ne_dots {behind : List Char} (hbehind : Dimensions ellipsis n behind)
    (hraw : IsElement raw) (helement : Spells raw element) : element ++ behind ≠ ['.', '.'] := by
  intro hdots
  have hlength := congrArg List.length hdots
  cases hbehind with
  | brackets hcs =>
      rcases hcs.eq_nil_or_last with rfl | hlast
      · rw [List.append_nil] at hdots
        cases helement with
        | plain _ _ => exact hraw.segments (hdots ▸ List.infix_refl _)
        | arguments _ _ _ =>
            have hlast := congrArg List.getLast? hdots
            rw [List.getLast?_concat] at hlast
            cases hlast
      · have hend := congrArg List.getLast? hdots
        rw [List.getLast?_append, hlast] at hend
        cases hend
  | ellipsis _ _ =>
      simp only [List.length_append, List.length_cons, List.length_nil] at hlength
      omega

theorem parameterPattern_of_ne (hnil : text ≠ []) (hrun : text ≠ ['.', '.']) (hone : text ≠ ['*'])
    (isLast : Bool) : parameterPattern isLast text = typePattern isLast text := by
  rw [parameterPattern.eq_4 _ _ hnil hrun hone]

theorem parameterPattern_of_text (h : ParameterText text ellipsis pattern) (isLast : Bool) :
    parameterPattern isLast text =
      if ellipsis && !isLast then .error .ellipsisNotLast else .ok pattern := by
  have hnil := h.bare.nonempty
  cases h with
  | run => rfl
  | one => rfl
  | type hraw helement hbehind hone =>
      rw [parameterPattern_of_ne hnil (hbehind.append_ne_dots hraw helement) hone]
      exact typePattern_append hraw helement hbehind isLast

theorem exists_of_parameterPattern {isLast : Bool} (h : parameterPattern isLast text = .ok pattern) :
    ∃ ellipsis, ParameterText text ellipsis pattern ∧ (ellipsis = true → isLast = true) := by
  obtain ⟨ellipsis, htext⟩ : ∃ ellipsis, ParameterText text ellipsis pattern := by
    by_cases hnil : text = []
    · rw [hnil] at h
      cases h
    by_cases hrun : text = ['.', '.']
    · rw [hrun] at h ⊢
      cases h
      exact ⟨false, .run⟩
    by_cases hone : text = ['*']
    · rw [hone] at h ⊢
      cases h
      exact ⟨false, .one⟩
    rw [parameterPattern_of_ne hnil hrun hone] at h
    obtain ⟨raw, element, behind, ellipsis, n, rfl, hraw, helement, hbehind, rfl⟩ :=
      exists_of_typePattern h
    exact ⟨ellipsis, .type hraw helement hbehind hone⟩
  refine ⟨ellipsis, htext, ?_⟩
  rintro rfl
  rw [parameterPattern_of_text htext] at h
  cases isLast with
  | false => cases h
  | true => rfl

theorem ParameterText.anyRun_iff (h : ParameterText text ellipsis pattern) :
    pattern = .anyRun ↔ text = ['.', '.'] := by
  cases h with
  | run => simp
  | one => simp
  | type hraw helement hbehind _ =>
      exact iff_of_false (by simp) (hbehind.append_ne_dots hraw helement)

theorem ParameterText.unique {ellipsis' : Bool} {pattern' : ParameterPattern}
    (h : ParameterText text ellipsis pattern) (h' : ParameterText text ellipsis' pattern') :
    ellipsis = ellipsis' ∧ pattern = pattern' := by
  refine ⟨Bool.eq_iff_iff.2 (h.ellipsis_iff.trans h'.ellipsis_iff.symm), ?_⟩
  have hread := (parameterPattern_of_text h true).symm.trans (parameterPattern_of_text h' true)
  simpa using hread

/-! ### Lists of parameters -/

/-- The parts of a list are the texts of parameters between blanks, of which the last may end in an
ellipsis. -/
inductive Parameters : List (List Char) → List ParameterPattern → Prop where
  | nil : Parameters [] []
  | cons {blanks text blanks' : List Char} {ellipsis : Bool} {pattern : ParameterPattern}
      {parts : List (List Char)} {patterns : List ParameterPattern} (hblanks : Blanks blanks)
      (htext : ParameterText text ellipsis pattern) (hblanks' : Blanks blanks')
      (hlast : ellipsis = true → parts = []) (h : Parameters parts patterns) :
      Parameters ((blanks ++ text ++ blanks') :: parts) (pattern :: patterns)

theorem parameterPatterns_iff {parts : List (List Char)} {patterns : List ParameterPattern} :
    parameterPatterns parts = .ok patterns ↔ Parameters parts patterns := by
  constructor
  · intro h
    induction parts generalizing patterns with
    | nil =>
        cases h
        exact .nil
    | cons part parts ih =>
        rw [parameterPatterns] at h
        obtain ⟨pattern, hfirst, h⟩ := bind_eq_ok.1 h
        obtain ⟨others, hothers, h⟩ := bind_eq_ok.1 h
        cases h
        obtain ⟨ellipsis, htext, hlast⟩ := exists_of_parameterPattern hfirst
        obtain ⟨blanks, blanks', hpart, hblanks, hblanks', -⟩ := exists_trimmed part
        rw [hpart]
        exact .cons hblanks htext hblanks' (fun h => List.isEmpty_iff.1 (hlast h)) (ih hothers)
  · intro h
    induction h with
    | nil => rfl
    | @cons blanks text blanks' ellipsis pattern parts patterns hblanks htext hblanks' hlast _ ih =>
        have hread : parameterPattern parts.isEmpty text = .ok pattern := by
          rw [parameterPattern_of_text htext]
          cases ellipsis with
          | false => rfl
          | true =>
              rw [hlast rfl]
              rfl
        rw [parameterPatterns, htext.bare.trimmed_append hblanks hblanks', hread, ih]
        rfl

theorem parameterPatterns_congr {parts parts' : List (List Char)}
    (h : List.Forall₂ (fun part part' => ∀ isLast,
      parameterPattern isLast (trimmed part) = parameterPattern isLast (trimmed part')) parts parts') :
    parameterPatterns parts = parameterPatterns parts' := by
  induction h with
  | nil => rfl
  | @cons part part' parts parts' hpart hparts ih =>
      have hlast : parts.isEmpty = parts'.isEmpty := by
        cases hparts <;> rfl
      rw [parameterPatterns, parameterPatterns, hpart, hlast, ih]

theorem parameterPatterns_trimmed {parts parts' : List (List Char)}
    (h : parts.map trimmed = parts'.map trimmed) :
    parameterPatterns parts = parameterPatterns parts' := by
  rw [← List.forall₂_eq_eq_eq, List.forall₂_map_left_iff, List.forall₂_map_right_iff] at h
  exact parameterPatterns_congr (h.imp fun part part' hpart isLast => by rw [hpart])

theorem exists_parameters_cons {part : List Char} {parts : List (List Char)} :
    (∃ patterns, Parameters (part :: parts) patterns) ↔
      (∃ ellipsis pattern, ParameterText (trimmed part) ellipsis pattern ∧
        (ellipsis = true → parts = [])) ∧ ∃ patterns, Parameters parts patterns := by
  constructor
  · rintro ⟨_, h⟩
    cases h with
    | cons hblanks htext hblanks' hlast h =>
        rw [htext.bare.trimmed_append hblanks hblanks']
        exact ⟨⟨_, _, htext, hlast⟩, _, h⟩
  · rintro ⟨⟨ellipsis, pattern, htext, hlast⟩, patterns, h⟩
    obtain ⟨blanks, blanks', hpart, hblanks, hblanks', -⟩ := exists_trimmed part
    rw [hpart]
    exact ⟨_, .cons hblanks htext hblanks' hlast h⟩

theorem exists_parameters_append {front back : List (List Char)} (hback : back ≠ []) :
    (∃ patterns, Parameters (front ++ back) patterns) ↔
      (∀ part ∈ front, ∃ pattern, ParameterText (trimmed part) false pattern) ∧
        ∃ patterns, Parameters back patterns := by
  induction front with
  | nil => simp
  | cons part front ih =>
      have hsome : front ++ back ≠ [] := by simp [hback]
      rw [List.cons_append, exists_parameters_cons, ih, List.forall_mem_cons, ← and_assoc]
      refine and_congr_left' (and_congr_left' ?_)
      constructor
      · rintro ⟨ellipsis, pattern, htext, hlast⟩
        cases ellipsis with
        | false => exact ⟨pattern, htext⟩
        | true => exact absurd (hlast rfl) hsome
      · rintro ⟨pattern, htext⟩
        exact ⟨false, pattern, htext, nofun⟩

/-- The text of a parameter list: blanks, or parameters with commas between them. -/
inductive ListText : List Char → List ParameterPattern → Prop where
  | none {blanks : List Char} (hblanks : Blanks blanks) : ListText blanks []
  | parameters {parts : List (List Char)} {patterns : List ParameterPattern} (hsome : parts ≠ [])
      (hcomma : ∀ part ∈ parts, ',' ∉ part) (h : Parameters parts patterns) :
      ListText (join ',' parts) patterns

theorem parameterList_of_not_blank {list : List Char} (h : ¬ Blanks list) :
    parameterList list = parameterPatterns (splitOn ',' list) := by
  have hsome : ¬ (trimmed list).isEmpty = true := fun hnil =>
    h (blanks_of_trimmed (List.isEmpty_iff.1 hnil))
  rw [parameterList, if_neg hsome, parameterPatterns_trimmed (splitOn_trimmed (by decide) list)]

theorem Parameters.not_blank {list : List Char} {patterns : List ParameterPattern}
    (h : Parameters (splitOn ',' list) patterns) : ¬ Blanks list := by
  intro hblank
  rw [splitOn_of_not_mem (hblank.not_mem (by decide)), ← parameterPatterns_iff, parameterPatterns,
    trimmed_blanks hblank] at h
  cases h

theorem parameterList_iff {list : List Char} {patterns : List ParameterPattern} :
    parameterList list = .ok patterns ↔ ListText list patterns := by
  constructor
  · intro h
    by_cases hblank : Blanks list
    · rw [parameterList, trimmed_blanks hblank] at h
      cases h
      exact .none hblank
    · rw [parameterList_of_not_blank hblank, parameterPatterns_iff] at h
      have hlist := ListText.parameters (splitOn_ne_nil ',' list) (fun _ => not_mem_of_splitOn) h
      rwa [join_splitOn] at hlist
  · intro h
    cases h with
    | none hblanks =>
        rw [parameterList, trimmed_blanks hblanks]
        rfl
    | parameters hsome hcomma h =>
        rw [← flatMap_splitOn hcomma, ← splitOn_join hsome] at h
        rw [parameterList_of_not_blank h.not_blank, parameterPatterns_iff]
        exact h

end

end Codemod.Pattern
