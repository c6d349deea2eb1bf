import Codemod.Proofs.Text.Parts
import Codemod.Proofs.Text.Slices
import Codemod.Proofs.Yaml.Lines
import Codemod.Yaml.Indexed

/-!
Places by their offsets. An offset that a place has is the size of the text in front of it, so the
line, the column and the errors there come out the same. Signs, blanks and comments are in ASCII but
for what a comment says, and a scan steps over that as a whole.
-/

namespace Codemod.Yaml

open Codemod.Text Codemod.Tree

/-! ### Places -/

theorem offset_pass (p : Position) (cs : List Char) : (p.pass cs).offset = p.offset + size cs := by
  induction cs generalizing p with
  | nil => rfl
  | cons c cs ih =>
      have hstep : (p.step c).offset = p.offset + c.utf8Size := by
        rw [Position.step]
        split_ifs with hc
        · rw [hc]
          rfl
        · rfl
      rw [Position.pass, List.foldl_cons, ← Position.pass, ih, hstep, size_cons, Nat.add_assoc]

theorem line_pass (p : Position) (cs : List Char) :
    (p.pass cs).line = p.line + cs.count '\n' := by
  induction cs generalizing p with
  | nil => rfl
  | cons c cs ih =>
      rw [Position.pass, List.foldl_cons, ← Position.pass, ih, Position.step, List.count_cons]
      by_cases hc : c = '\n'
      · simp only [hc, if_true, beq_self_eq_true]
        omega
      · simp [hc]

/-- The place is in the text, behind this front part of it. -/
structure Place.Cuts (text front : List Char) (p : Place) : Prop where
  text : text = front ++ p.ahead
  position : p.position = ({} : Position).pass front

namespace Place.Cuts

variable {text front : List Char} {p : Place} (h : p.Cuts text front)
include h

theorem offset : p.position.offset = size front := by
  rw [h.position, offset_pass]
  exact Nat.zero_add _

theorem move {taken left : List Char} (hahead : taken ++ left = p.ahead) :
    (p.move taken left).Cuts text (front ++ taken) where
  text := by rw [h.text, ← hahead, List.append_assoc]; rfl
  position := by rw [pass_append, ← h.position]; rfl

theorem boundary : Boundary text p.position.offset :=
  ⟨front, p.ahead, h.text, h.offset.symm⟩

theorem byte? : Text.byte? text p.position.offset = Text.byte? p.ahead 0 := by
  rw [h.text, h.offset, byte?_at]

theorem byte_iff {c : Char} (hc : ¬ Wide c) :
    Text.byte? text p.position.offset = some c ↔ p.ahead.head? = some c := by
  rw [h.byte?]
  exact byte_eq_some_iff hc p.ahead

theorem byte_bne {c : Char} (hc : ¬ Wide c) :
    (Text.byte? text p.position.offset != some c) = (p.ahead.head? != some c) := by
  rw [Bool.eq_iff_iff, bne_iff_ne, bne_iff_ne, Ne, Ne, h.byte_iff hc]

theorem slice? {taken : List Char} {q : Place} (hq : q.Cuts text (front ++ taken)) :
    Text.slice? text p.position.offset q.position.offset = some taken := by
  rw [hq.text, h.offset, hq.offset, List.append_assoc, slice?_append]

theorem upTo? : Text.upTo? text p.position.offset = some front := by
  rw [h.text, h.offset, upTo?_append]

theorem from? : Text.from? text p.position.offset = some p.ahead := by
  rw [h.text, h.offset, from?_append]

theorem atEnd : Indexed.atEnd text p.position.offset = p.atEnd := by
  rw [Indexed.atEnd, Place.atEnd, h.text, h.offset, size_append]
  cases p.ahead with
  | nil => simp
  | cons c cs =>
      refine decide_eq_false fun hend => ?_
      have hsize := c.utf8Size_pos
      rw [size_cons] at hend
      omega

/-! ### Errors -/

theorem lineOf : Indexed.lineOf text p.position.offset = some p.position.line := by
  have hsize : p.position.offset ≤ size text := by
    rw [h.text, h.offset, size_append]
    exact Nat.le_add_right _ _
  rw [Indexed.lineOf, Nat.min_eq_left hsize, h.upTo?, h.position, line_pass, Nat.add_comm]
  rfl

variable {α β : Type} {R : α → β → Prop}

theorem unsupported (construct : Construct) :
    Retraces ParseError.offset text R (Indexed.unsupported text construct p.position.offset)
      (.error (p.unsupported construct)) := by
  rw [Indexed.unsupported, lift_bind h.lineOf]
  exact .error h.boundary

theorem expected (wanted : Wanted) :
    Retraces ParseError.offset text R (Indexed.expected text wanted p.position.offset)
      (.error (p.expected wanted)) := by
  rw [Indexed.expected, lift_bind h.lineOf]
  exact .error h.boundary

theorem indentation :
    Retraces ParseError.offset text R (Indexed.indentation text p.position.offset)
      (.error p.indentation) := by
  rw [Indexed.indentation, lift_bind h.lineOf]
  exact .error h.boundary

end Place.Cuts

namespace Indexed

variable (front cs : List Char)

/-! ### Signs -/

theorem inAscii_isSpace : InAscii isSpace :=
  (inAscii_eq (by decide)).or (inAscii_eq (by decide))

theorem inAscii_isBreak : InAscii isBreak :=
  (inAscii_eq (by decide)).or (inAscii_eq (by decide))

theorem endsIndicator_eq :
    endsIndicator (front ++ cs) (size front) = Yaml.endsIndicator cs := by
  rw [endsIndicator, byte?_at, all_byte (inAscii_isSpace.or inAscii_isBreak)]
  cases cs <;> rfl

theorem startsQuote_eq : startsQuote (front ++ cs) (size front) = Yaml.startsQuote cs := by
  rw [startsQuote, byte?_at, any_byte ((inAscii_eq (by decide)).or (inAscii_eq (by decide)))]
  cases cs <;> rfl

theorem startsMarker_eq (marker : String) :
    startsMarker (front ++ cs) marker (size front) = some (Yaml.startsMarker marker cs) := by
  rw [startsMarker, from?_append, Yaml.startsMarker]
  show some (marker.toList.isPrefixOf cs &&
    endsIndicator (front ++ cs) (size front + size marker.toList)) = _
  by_cases hmarker : marker.toList.isPrefixOf cs = true
  · obtain ⟨rest, rfl⟩ := List.isPrefixOf_iff_prefix.1 hmarker
    have hends := endsIndicator_eq (front ++ marker.toList) rest
    rw [size_append, List.append_assoc] at hends
    rw [List.drop_left, ← hends]
  · rw [Bool.eq_false_iff.2 hmarker, Bool.false_and, Bool.false_and]

theorem unsupported?_sign (inValue : Bool) :
    Yaml.unsupported? inValue cs =
      if !inValue && Yaml.startsMarker "---" cs then some .multipleDocuments
      else if !inValue && Yaml.startsMarker "..." cs then some .documentEnd
      else unsupportedSign inValue cs := by
  unfold Yaml.unsupported?
  split_ifs
  · rfl
  · rfl
  · cases cs with
    | nil => rfl
    | cons c rest =>
        by_cases hsize : c.utf8Size = 1
        · have hends := endsIndicator_eq [c] rest
          rw [size_cons, hsize] at hends
          replace hends : endsIndicator (c :: rest) 1 = Yaml.endsIndicator rest := hends
          rw [unsupportedSign, byte?_ascii hsize, hends]
          split <;> simp_all
        · -- Outside of ASCII stands no sign, be it a character or a byte.
          have hc := wide_of_size hsize
          obtain ⟨b, hb, hwide⟩ := byte?_wide hsize rest c.utf8Size_pos
          have hnone : unsupportedSign inValue (c :: rest) = none := by
            rw [unsupportedSign, hb]
            split <;> simp_all +decide
          rw [hnone]
          split <;> simp_all +decide

theorem unsupported?_eq (inValue : Bool) :
    unsupported? (front ++ cs) inValue (size front) = some (Yaml.unsupported? inValue cs) := by
  rw [unsupported?, from?_append, unsupported?_sign]
  cases inValue with
  | true => rfl
  | false =>
      simp only [startsMarker_eq]
      cases Yaml.startsMarker "---" cs <;> cases Yaml.startsMarker "..." cs <;> rfl

/-! ### Pieces of a line -/

theorem skipSpaces_eq :
    skipSpaces (front ++ cs) (size front) = some (size (front ++ (spaces cs).1)) := by
  have hrun := @seek_run (fun offset => some !(byte? (front ++ cs) offset).any isSpace)
    (front ++ cs) front (fun _ => List.takeWhile isSpace) (fun _ c _ => !isSpace c) (fun _ => rfl)
    ?_ ?_ ?_ ?_ [] cs rfl
  · simpa [skipSpaces, spaces] using hrun
  · intro passed c rest
    cases hc : isSpace c <;> simp [hc]
  · rw [byte?_end]
    rfl
  · intro passed c rest htext
    rw [htext, ← List.append_assoc, byte?_at, any_byte inAscii_isSpace]
    rfl
  · intro passed c rest hc hsize
    exact absurd (inAscii_isSpace.size (by simpa using hc)) hsize

theorem lineEnd_char {c : Char} {rest : List Char} (hc : c ≠ '\n') :
    lineEnd (front ++ c :: rest) (size front) =
      lineEnd (front ++ c :: rest) (size (front ++ [c])) := by
  refine seek_char rfl (fun offset b hb hwide => ?_) ?_
  · rw [hb]
    exact congrArg some (inAscii_eq (by decide) b hwide)
  · rw [byte?_at, all_byte (inAscii_eq (by decide))]
    exact congrArg some (decide_eq_false hc)

theorem triviaEndWithin_eq {limit : Nat} (hlimit : cs.length < limit) :
    triviaEndWithin (front ++ cs) limit (size front) =
        some (size (front ++ (trivia false cs).1)) ∧
      (lineEnd (front ++ cs) (size front) >>= triviaEndWithin (front ++ cs) limit) =
        some (size (front ++ (trivia true cs).1)) := by
  induction cs generalizing front limit with
  | nil =>
      obtain ⟨limit, rfl⟩ : ∃ n, limit = n + 1 := ⟨limit - 1, by omega⟩
      have hbyte : byte? (front ++ []) (size front) = none := byte?_at front []
      have hend : triviaEndWithin (front ++ []) (limit + 1) (size front) = some (size front) := by
        rw [triviaEndWithin, hbyte]
      rw [lineEnd, seek_stop (by rw [hbyte]; rfl)]
      simpa [trivia] using hend
  | cons c rest ih =>
      obtain ⟨limit, rfl⟩ : ∃ n, limit = n + 1 := ⟨limit - 1, by omega⟩
      have hrest : rest.length < limit := Nat.lt_of_succ_lt_succ hlimit
      have hbehind : front ++ [c] ++ rest = front ++ c :: rest := by simp
      obtain ⟨b, hb, hhead⟩ := byte?_head c rest
      have hbyte : byte? (front ++ c :: rest) (size front) = some b := by rw [byte?_at, hb]
      have hcomment : ∀ {limit}, rest.length < limit → c ≠ '\n' →
          (lineEnd (front ++ c :: rest) (size front) >>=
            triviaEndWithin (front ++ c :: rest) limit) =
              some (size (front ++ (trivia true (c :: rest)).1)) := by
        intro limit hlimit hc
        have hgoes : (c != '\n') = true := by simpa using hc
        have hinside := (ih (front ++ [c]) hlimit).2
        rw [hbehind, List.append_assoc] at hinside
        rw [lineEnd_char front hc, hinside, trivia, if_pos rfl, hgoes]
        rfl
      have hstep : triviaEndWithin (front ++ c :: rest) (limit + 1) (size front) =
          some (size (front ++ (trivia false (c :: rest)).1)) := by
        rw [triviaEndWithin, hbyte]
        simp only [(inAscii_isSpace.or inAscii_isBreak).head hhead,
          head_eq_iff (by decide : ¬ Wide '#') hhead]
        split_ifs with hblank hsign
        · have hsize := (inAscii_isSpace.or inAscii_isBreak).size hblank
          have hnext : size front + 1 = size (front ++ [c]) := by
            rw [size_append, size_cons, hsize, size_nil]
          have houtside := (ih (front ++ [c]) hrest).1
          rw [hbehind, List.append_assoc] at houtside
          rw [hnext, houtside, trivia, if_neg Bool.false_ne_true, if_pos hblank]
          rfl
        · subst hsign
          exact hcomment hrest (by decide)
        · rw [trivia, if_neg Bool.false_ne_true, if_neg hblank, if_neg hsign, List.append_nil]
      refine ⟨hstep, ?_⟩
      by_cases hc : c = '\n'
      · subst hc
        have hstop : (byte? (front ++ '\n' :: rest) (size front)).all (· = '\n') = true := by
          rw [byte?_at, all_byte (inAscii_eq (by decide))]
          rfl
        rw [lineEnd, seek_stop (congrArg some hstop)]
        exact hstep
      · exact hcomment (Nat.lt_succ_of_lt hrest) hc

theorem lineStart_eq : ∃ above, cs = above ++ lastLine cs ∧
    ((findLast? '\n' cs).map (· + 1)).getD 0 = size above := by
  by_cases hbreak : '\n' ∈ cs
  · obtain ⟨above, habove⟩ := exists_lastLine hbreak
    have hlast : findLast? '\n' cs = some (size above) := by
      rw [findLast?, habove, splitLast_append _ (not_mem_lastLine cs)]
      rfl
    refine ⟨above ++ ['\n'], by simpa using habove, ?_⟩
    rw [hlast, size_append]
    rfl
  · refine ⟨[], (lastLine_of_not_mem hbreak).symm, ?_⟩
    rw [findLast?, splitLast_eq_none hbreak]
    rfl

theorem trimmed_isEmpty : (trimSpaces (cs.dropWhile isSpace)).isEmpty = cs.all isSpace := by
  have hall : cs.all isSpace = (cs.dropWhile isSpace).all isSpace := by
    conv_lhs => rw [← @List.takeWhile_append_dropWhile _ isSpace cs]
    rw [List.all_append, List.all_takeWhile, Bool.true_and]
  rw [hall, trimSpaces, List.isEmpty_reverse, Bool.eq_iff_iff, List.isEmpty_iff,
    List.dropWhile_eq_nil_iff, List.all_eq_true]
  simp only [List.mem_reverse]

section
variable {text front : List Char} {p : Place} (h : p.Cuts text front)
include h

theorem line_of_cuts :
    p.column = size (lastLine front) ∧
      p.position.onlySpaces = (lastLine front).all isSpace ∧
      p.position.tab = (lastLine front).contains '\t' := by
  have hline : p.position.inLine = (margin front).inLine := by
    rw [h.position]
    exact inLine_lead (.inr rfl)
  simp only [Position.inLine, Prod.mk.injEq] at hline
  obtain ⟨hcolumn, hspaces, htab⟩ := hline
  have hbreak := not_mem_lastLine front
  obtain ⟨hspaces', htab'⟩ := @flags_pass {} (lastLine front) hbreak
  refine ⟨?_, hspaces.trans (hspaces'.trans (Bool.true_and _)),
    htab.trans (htab'.trans (Bool.false_or _))⟩
  rw [Place.column, hcolumn, margin, column_pass hbreak, ← size_toList, String.toList_ofList]
  exact Nat.zero_add _

theorem retraces_skip :
    Retraces ParseError.offset text
      (fun x y => x = (y.2.position.offset, y.2.column) ∧ y.2.Cuts text (front ++ y.1))
      (skip text p.position.offset) p.skip := by
  obtain ⟨lead, left, htrivia⟩ : ∃ lead left, trivia false p.ahead = (lead, left) := ⟨_, _, rfl⟩
  have hnext : (p.move lead left).Cuts text (front ++ lead) := by
    have hparts := trivia_append false p.ahead
    rw [htrivia] at hparts
    exact h.move hparts
  have hstop : triviaEndWithin text (text.length + 1) p.position.offset =
      some (p.move lead left).position.offset := by
    have hlimit : p.ahead.length < (front ++ p.ahead).length + 1 := by
      rw [List.length_append]
      omega
    rw [hnext.offset, h.offset, h.text, (triviaEndWithin_eq front p.ahead hlimit).1, htrivia]
  obtain ⟨above, habove, hstart⟩ := lineStart_eq (front ++ lead)
  have hleading : slice? text (size above) (p.move lead left).position.offset =
      some (lastLine (front ++ lead)) := by
    refine slice?_eq_some_iff.2 ⟨above, left, ?_, rfl, ?_⟩
    · rw [hnext.text, ← List.append_assoc, ← habove]
      rfl
    · rw [hnext.offset, ← habove]
  obtain ⟨hcolumn, hspaces, htab⟩ := line_of_cuts hnext
  rw [skip, lift_bind hstop, lift_bind hnext.upTo?, hstart, lift_bind hleading]
  simp only [Place.skip, htrivia]
  rw [hnext.atEnd, trimmed_isEmpty, ← hspaces, ← htab, Bool.and_right_comm]
  split_ifs
  · exact hnext.unsupported .tabIndentation
  · have hsize := congrArg size habove
    rw [size_append above] at hsize
    have hcolumn' :
        (p.move lead left).position.offset - size above = (p.move lead left).column := by
      rw [hcolumn, hnext.offset, hsize, Nat.add_sub_cancel_left]
    exact .ok ⟨Prod.ext rfl hcolumn', hnext⟩

end

end Indexed

end Codemod.Yaml
