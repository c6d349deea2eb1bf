import Codemod.Proofs.Yaml.Lines
import Codemod.Proofs.Yaml.Reading

/-!
Keys and scalars as properties of their characters alone. The scanning functions look no further
than a character behind what they take, so what was read once is read again in front of any other
rest that ends it in the same way.
-/

namespace Codemod.Yaml

open Codemod.Tree

/-! ### Blanks -/

theorem spaces_eq_iff {cs blanks left : List Char} :
    spaces cs = (blanks, left) ↔ cs = blanks ++ left ∧ (∀ c ∈ blanks, isSpace c = true) ∧
      ∀ c ∈ left.head?, isSpace c = false := by
  rw [spaces, Prod.mk.injEq]
  constructor
  · rintro ⟨rfl, rfl⟩
    refine ⟨(List.takeWhile_append_dropWhile ..).symm, fun c hc => ?_, fun c hc => ?_⟩
    · exact List.all_eq_true.1 List.all_takeWhile c hc
    · have hstop := List.head?_dropWhile_not isSpace cs
      rw [Option.mem_def.1 hc] at hstop
      simpa using hstop
  · rintro ⟨rfl, hblanks, hleft⟩
    rw [List.takeWhile_append_of_pos hblanks, List.dropWhile_append_of_pos hblanks]
    cases left with
    | nil => simp
    | cons c left =>
        have hc : isSpace c = false := hleft c rfl
        simp [hc]

theorem trimSpaces_eq_iff {cs raw : List Char} :
    trimSpaces cs = raw ↔ ∃ blanks, cs = raw ++ blanks ∧ (∀ c ∈ blanks, isSpace c = true) ∧
      ∀ c ∈ raw.getLast?, isSpace c = false := by
  have hspaces : ∀ blanks, spaces cs.reverse = (blanks, raw.reverse) ↔ cs = raw ++ blanks.reverse ∧
      (∀ c ∈ blanks, isSpace c = true) ∧ ∀ c ∈ raw.getLast?, isSpace c = false := by
    intro blanks
    rw [spaces_eq_iff, List.head?_reverse, List.reverse_eq_iff, List.reverse_append,
      List.reverse_reverse]
  constructor
  · rintro rfl
    have h := (hspaces (spaces cs.reverse).1).1 (Prod.ext rfl (by simp [spaces, trimSpaces]))
    exact ⟨_, h.1, fun c hc => h.2.1 c (List.mem_reverse.1 hc), h.2.2⟩
  · rintro ⟨blanks, hcs, hblanks, hlast⟩
    have h := (hspaces blanks.reverse).2
      ⟨by rwa [List.reverse_reverse], fun c hc => hblanks c (List.mem_reverse.1 hc), hlast⟩
    rw [trimSpaces, ← List.reverse_reverse raw]
    exact congrArg (fun s => s.2.reverse) h

/-- The line ends here, perhaps with a comment, which has a blank in front of it where it needs
one. -/
structure EndsLine (edge : Edge) (cs : List Char) : Prop where
  below : valueIsBelow (spaces cs).2 = true
  apart : Apart edge cs

theorem spaces_cons {c : Char} (cs : List Char) (h : isSpace c = true) :
    (spaces (c :: cs)).2 = (spaces cs).2 :=
  List.dropWhile_cons_of_pos h

theorem spaces_cons_of_not {c : Char} (cs : List Char) (h : isSpace c = false) :
    spaces (c :: cs) = ([], c :: cs) :=
  spaces_eq_iff.2 ⟨rfl, nofun, by simpa using h⟩

theorem below_of_trivia {lead rest : List Char} (h : IsTrivia lead)
    (hends : '\n' ∈ lead ∨ rest = []) : valueIsBelow (spaces (lead ++ rest)).2 = true := by
  induction lead with
  | nil =>
      obtain rfl := hends.resolve_left (by simp)
      rfl
  | cons c lead ih =>
      rw [List.cons_append]
      cases hspace : isSpace c with
      | true =>
          rw [spaces_cons _ hspace]
          refine ih ?_ (hends.imp_left fun hmem => ?_)
          · simpa [IsTrivia, commentBehind, hspace] using h
          · refine (List.mem_cons.1 hmem).resolve_left ?_
            rintro rfl
            cases hspace
      | false =>
          rw [spaces_cons_of_not _ hspace]
          rw [IsTrivia, commentBehind, hspace, Bool.false_or] at h
          split_ifs at h with hbreak hsign
          · simp [valueIsBelow, hbreak]
          · simp [valueIsBelow, hsign]
          · cases h

/-- What ends a line ends an indicator character in front of it. -/
theorem endsIndicator_of_endsLine {cs : List Char} (h : EndsLine .word cs) :
    endsIndicator cs = true := by
  obtain ⟨hbelow, hapart⟩ := h
  cases cs with
  | nil => rfl
  | cons c cs =>
      cases hspace : isSpace c with
      | true => simp [endsIndicator, hspace]
      | false =>
          rw [spaces_cons_of_not _ hspace] at hbelow
          have hsign : c ≠ '#' := fun hc => hapart rfl (by rw [hc]; rfl)
          simpa [endsIndicator, hspace, valueIsBelow, hsign] using hbelow

theorem head_of_endsLine {cs : List Char} (h : EndsLine .word cs) : cs.head? ≠ some '\'' := by
  intro hhead
  obtain ⟨rest, rfl⟩ := List.head?_eq_some_iff.1 hhead
  have hends := endsIndicator_of_endsLine h
  cases hends

theorem lineEnds_iff {p : Place} : lineEnds p = .ok () ↔ EndsLine .word p.ahead := by
  obtain ⟨blanks, left, hspaces⟩ : ∃ blanks left, spaces p.ahead = (blanks, left) := ⟨_, _, rfl⟩
  have hahead := (spaces_eq_iff.1 hspaces).1
  rw [lineEnds]
  simp only [hspaces]
  cases left with
  | nil =>
      refine iff_of_true rfl ⟨by rw [hspaces]; rfl, fun _ hsign => ?_⟩
      have hblank := (spaces_eq_iff.1 hspaces).2.1 '#'
      rw [hahead, List.append_nil] at hsign
      exact absurd (hblank (List.mem_of_head? hsign)) (by decide)
  | cons c left =>
      have hsign : Apart .word p.ahead ↔ (blanks = [] → c ≠ '#') := by
        rw [hahead]
        cases blanks with
        | nil => simp [Apart]
        | cons b blanks =>
            have hb := (spaces_eq_iff.1 hspaces).2.1 b List.mem_cons_self
            refine iff_of_true (fun _ hsign => ?_) (by simp)
            obtain rfl : b = '#' := by simpa using hsign
            cases hb
      have hends : (isBreak c || !blanks.isEmpty && decide (c = '#')) = true ↔
          EndsLine .word p.ahead := by
        constructor
        · intro h
          refine ⟨by rw [hspaces]; cases hbreak : isBreak c <;> simp_all [valueIsBelow], hsign.2 ?_⟩
          rintro rfl rfl
          cases h
        · rintro ⟨hbelow, hapart⟩
          rw [hspaces] at hbelow
          have happart := hsign.1 hapart
          cases hblanks : blanks with
          | nil => simpa [valueIsBelow, happart hblanks] using hbelow
          | cons b blanks => simpa [valueIsBelow] using hbelow
      rw [← hends]
      simp only
      split_ifs with h
      · exact iff_of_true rfl h
      · exact iff_of_false (by simp) h

/-! ### Scanners -/

theorem unsupported_congr {inValue : Bool} {c : Char} {cs ds : List Char}
    (hmarkers : ∀ m ∈ ["---", "..."], inValue = false →
      startsMarker m (c :: cs) = startsMarker m (c :: ds))
    (hindicator : endsIndicator cs = endsIndicator ds) :
    unsupported? inValue (c :: cs) = unsupported? inValue (c :: ds) := by
  have hsigns : ∀ m ∈ ["---", "..."],
      (!inValue && startsMarker m (c :: cs)) = (!inValue && startsMarker m (c :: ds)) := by
    intro m hm
    cases inValue with
    | false => rw [hmarkers m hm rfl]
    | true => rfl
  unfold unsupported?
  rw [hsigns "---" (by simp), hsigns "..." (by simp)]
  split_ifs
  · rfl
  · rfl
  · split <;> simp_all

theorem startsMarker_colon {m : String} (hm : ':' ∉ m.toList) (xs rest rest' : List Char) :
    startsMarker m (xs ++ ':' :: rest) = startsMarker m (xs ++ ':' :: rest') := by
  rw [startsMarker, startsMarker]
  generalize m.toList = sign at hm
  induction sign generalizing xs with
  | nil => cases xs <;> rfl
  | cons a sign ih =>
      rw [List.mem_cons, not_or] at hm
      cases xs with
      | nil =>
          have ha : (a == ':') = false := by simpa using Ne.symm hm.1
          simp [List.isPrefixOf_cons_cons, ha]
      | cons x xs =>
          simp only [List.cons_append, List.isPrefixOf_cons_cons, List.length_cons,
            List.drop_succ_cons, Bool.and_assoc]
          rw [ih xs hm.2]

theorem unsupported_colon (xs rest rest' : List Char) :
    unsupported? false (xs ++ ':' :: rest) = unsupported? false (xs ++ ':' :: rest') := by
  cases xs with
  | nil => rfl
  | cons x xs =>
      refine unsupported_congr (fun m hm _ => ?_) (by cases xs <;> rfl)
      refine startsMarker_colon ?_ (x :: xs) rest rest'
      simp only [List.mem_cons, List.not_mem_nil, or_false] at hm
      rcases hm with rfl | rfl <;> decide

theorem keyRun_colon {afterSpace : Bool} {xs rest : List Char}
    (h : keyRun afterSpace (xs ++ ':' :: rest) = xs) :
    endsIndicator rest = true ∧ ∀ {rest' : List Char}, endsIndicator rest' = true →
      keyRun afterSpace (xs ++ ':' :: rest') = xs := by
  induction xs generalizing afterSpace with
  | nil =>
      rw [List.nil_append, keyRun] at h
      split_ifs at h with hstop
      have hends : endsIndicator rest = true := by simpa [isBreak] using hstop
      refine ⟨hends, fun h' => ?_⟩
      simp [keyRun, h']
  | cons x xs ih =>
      have hindicator : ∀ rest', endsIndicator (xs ++ ':' :: rest') =
          endsIndicator (xs ++ ':' :: rest) := fun rest' => by cases xs <;> rfl
      rw [List.cons_append, keyRun] at h
      split_ifs at h with hgo
      obtain ⟨hends, hkeeps⟩ := ih (List.cons.inj h).2
      refine ⟨hends, fun {rest'} h' => ?_⟩
      rw [List.cons_append, keyRun, hindicator, if_neg hgo, hkeeps h']

theorem plainRun_blank_iff {afterSpace : Bool} {rest : List Char} :
    (∀ c ∈ plainRun afterSpace rest, isSpace c = true) ↔
      valueIsBelow (spaces rest).2 = true ∧ (afterSpace = false → rest.head? ≠ some '#') := by
  induction rest generalizing afterSpace with
  | nil => exact iff_of_true nofun ⟨rfl, by simp⟩
  | cons c rest ih =>
      cases hspace : isSpace c with
      | true =>
          have hother : isBreak c = false ∧ c ≠ '#' := by
            simp only [isSpace, Bool.or_eq_true, decide_eq_true_eq] at hspace
            rcases hspace with rfl | rfl <;> decide
          have hgo : (isBreak c || afterSpace && decide (c = '#')) = false := by simp [hother]
          rw [plainRun, hgo, if_neg (by simp), hspace, spaces_cons _ hspace, List.forall_mem_cons, ih]
          simp [hspace, hother.2]
      | false =>
          have hrun : (∀ d ∈ plainRun afterSpace (c :: rest), isSpace d = true) ↔
              (isBreak c || afterSpace && decide (c = '#')) = true := by
            rw [plainRun]
            split_ifs with hstop
            · exact iff_of_true nofun hstop
            · exact iff_of_false (fun h => by simp [h c] at hspace) hstop
          rw [hrun, spaces_cons_of_not _ hspace, valueIsBelow, List.head?_cons]
          cases hbreak : isBreak c with
          | true =>
              have hsign : c ≠ '#' := by rintro rfl; cases hbreak
              simp [hsign]
          | false => cases afterSpace <;> simp

theorem plainRun_append {afterSpace : Bool} {raw rest : List Char}
    (h : raw <+: plainRun afterSpace (raw ++ rest)) (hne : raw ≠ [])
    (hlast : ∀ c ∈ raw.getLast?, isSpace c = false) (rest' : List Char) :
    plainRun afterSpace (raw ++ rest') = raw ++ plainRun false rest' := by
  induction raw generalizing afterSpace with
  | nil => exact absurd rfl hne
  | cons c raw ih =>
      rw [List.cons_append, plainRun] at h ⊢
      split_ifs at h ⊢ with hstop
      · simp at h
      · have hrest := (List.cons_prefix_cons.1 h).2
        cases raw with
        | nil =>
            have hc : isSpace c = false := hlast c rfl
            rw [hc]
            rfl
        | cons d raw =>
            rw [ih hrest (by simp) (by simpa using hlast)]
            rfl

/-! ### Keys -/

/-- What a colon is that stands behind a key: a comment may begin at once behind a quoted one. -/
def colonBehind (raw : List Char) : Edge :=
  if startsQuote raw then .colon else .word

/-- A key with blanks and its colon behind it is read in front of any rest that a colon behind it
may have. -/
structure KeyForm (raw gap : List Char) : Prop where
  ne_nil : raw ≠ []
  stops : ∀ rest, StopsTrivia (raw ++ rest)
  reads : ∀ {p : Place} {rest : List Char}, p.ahead = raw ++ (gap ++ ':' :: rest) →
    (startsQuote raw = false → endsIndicator rest = true) → ∃ q, KeyAt p raw gap q

theorem startsQuote_append {raw : List Char} (hne : raw ≠ []) (rest : List Char) :
    startsQuote (raw ++ rest) = startsQuote raw := by
  cases raw with
  | nil => exact absurd rfl hne
  | cons c raw => rfl

theorem quotedText_eq_ok {p q : Place} {raw : List Char} :
    quotedText p = .ok (raw, q) ↔ ∃ quote cs taken, p.ahead = quote :: cs ∧
      quotedRun quote cs = some (taken, q.ahead) ∧ raw = quote :: taken ∧ q = p.move raw q.ahead := by
  rw [quotedText]
  constructor
  · intro h
    split at h
    · cases h
    · rename_i quote cs hahead
      split at h
      · rename_i taken left hrun
        cases h
        exact ⟨quote, cs, taken, hahead, hrun, rfl, rfl⟩
      · cases h
  · rintro ⟨quote, cs, taken, hahead, hrun, rfl, hq⟩
    rw [hahead]
    simp only [hrun]
    rw [← hq]

theorem startsQuote_iff {c : Char} {cs : List Char} :
    startsQuote (c :: cs) = true ↔ c = '"' ∨ c = '\'' := by
  simp [startsQuote]

theorem enclosed_of_quotedText {p q : Place} {raw : List Char} (hstarts : startsQuote p.ahead = true)
    (h : quotedText p = .ok (raw, q)) : ∃ quote inner, (quote = '"' ∨ quote = '\'') ∧
      Enclosed quote inner ∧ raw = quote :: (inner ++ [quote]) := by
  obtain ⟨quote, cs, taken, hahead, hrun, rfl, _⟩ := quotedText_eq_ok.1 h
  rw [hahead, startsQuote_iff] at hstarts
  obtain ⟨inner, rfl, hcloses⟩ := closes_of_quotedRun hrun
  exact ⟨quote, inner, hstarts, hcloses.enclosed, rfl⟩

theorem quotedText_enclosed {quote : Char} {inner : List Char} (hquote : quote = '"' ∨ quote = '\'')
    (h : Enclosed quote inner) {p : Place} {rest : List Char}
    (hahead : p.ahead = quote :: (inner ++ [quote]) ++ rest) (hrest : rest.head? ≠ some '\'') :
    quotedText p = .ok (quote :: (inner ++ [quote]), p.move (quote :: (inner ++ [quote])) rest) := by
  have hcloses : Closes quote inner rest (inner ++ quote :: rest) := ⟨rfl, h, fun _ => hrest⟩
  refine quotedText_eq_ok.2 ⟨quote, inner ++ quote :: rest, inner ++ [quote], ?_,
    quotedRun_of_closes hquote hcloses, rfl, rfl⟩
  rw [hahead]
  simp

theorem quotedText_front {p q p' : Place} {raw rest : List Char} (hstarts : startsQuote p.ahead = true)
    (h : quotedText p = .ok (raw, q)) (hahead : p'.ahead = raw ++ rest)
    (hrest : rest.head? ≠ some '\'') : quotedText p' = .ok (raw, p'.move raw rest) := by
  obtain ⟨quote, inner, hquote, henclosed, rfl⟩ := enclosed_of_quotedText hstarts h
  exact quotedText_enclosed hquote henclosed hahead hrest

/-- The parts of a key without quotes. -/
theorem key_plain_eq_ok {p q : Place} {raw : List Char} (hplain : startsQuote p.ahead = false) :
    key p = .ok (raw, q) ↔ ∃ gap rest, p.ahead = raw ++ (gap ++ ':' :: rest) ∧
      keyRun false p.ahead = raw ++ gap ∧ (∀ c ∈ gap, isSpace c = true) ∧
        (∀ c ∈ raw.getLast?, isSpace c = false) ∧ raw ≠ [] ∧ q = p.move raw (gap ++ ':' :: rest) := by
  rw [key, if_neg (by simp [hplain])]
  simp only
  constructor
  · intro h
    split_ifs at h with hcolon hempty
    cases h
    obtain ⟨gap, hrun, hgap, hlast⟩ := trimSpaces_eq_iff.1 (rfl : trimSpaces (keyRun false p.ahead) = _)
    have hahead := append_drop_of_starts (keyRun_starts false p.ahead)
    cases hleft : p.ahead.drop (keyRun false p.ahead).length with
    | nil => simp [hleft] at hcolon
    | cons c rest =>
        obtain rfl : c = ':' := by simpa [hleft] using hcolon
        rw [hleft] at hahead
        have hparts : p.ahead = trimSpaces (keyRun false p.ahead) ++ (gap ++ ':' :: rest) := by
          rw [← List.append_assoc, ← hrun]
          exact hahead.symm
        have hdrop : p.ahead.drop (trimSpaces (keyRun false p.ahead)).length =
            gap ++ ':' :: rest := by
          generalize trimSpaces (keyRun false p.ahead) = raw at hparts
          rw [hparts, List.drop_left]
        exact ⟨gap, rest, hparts, hrun, hgap, hlast, by simpa using hempty, by rw [hdrop]⟩
  · rintro ⟨gap, rest, hahead, hrun, hgap, hlast, hne, rfl⟩
    have htrim : trimSpaces (raw ++ gap) = raw := trimSpaces_eq_iff.2 ⟨gap, rfl, hgap, hlast⟩
    have hleft : p.ahead.drop (raw ++ gap).length = ':' :: rest := by
      rw [hahead, ← List.append_assoc, List.drop_left]
    rw [hrun, htrim, hleft, if_neg (by simp), if_neg (by simpa using hne), hahead, List.drop_left]

theorem key_moves {p q : Place} {raw : List Char} (h : key p = .ok (raw, q)) :
    raw ≠ [] ∧ q = p.move raw q.ahead := by
  cases hquote : startsQuote p.ahead with
  | true =>
      rw [key, if_pos hquote] at h
      obtain ⟨quote, cs, taken, _, _, rfl, hq⟩ := quotedText_eq_ok.1 h
      exact ⟨by simp, hq⟩
  | false =>
      obtain ⟨gap, rest, _, _, _, _, hne, rfl⟩ := (key_plain_eq_ok hquote).1 h
      exact ⟨hne, rfl⟩

section
variable {p q : Place} {raw gap : List Char} (h : KeyAt p raw gap q)
include h

theorem KeyAt.parts : p.ahead = raw ++ (gap ++ ':' :: q.ahead) ∧ raw ≠ [] ∧
    (∀ c ∈ gap, isSpace c = true) ∧ q.position = p.position.pass (raw ++ (gap ++ [':'])) := by
  have hpasses := h.passes
  obtain ⟨_, r, left, hread, hspaces, rfl⟩ := h
  obtain ⟨hne, hr⟩ := key_moves hread
  refine ⟨by simpa [Place.Passes] using hpasses, hne, (spaces_eq_iff.1 hspaces).2.1, ?_⟩
  rw [pass_append, pass_append, hr]
  rfl

theorem KeyAt.supports {p' : Place} {rest : List Char}
    (hahead : p'.ahead = raw ++ (gap ++ ':' :: rest)) : unsupported? false p'.ahead = none := by
  have hsame := unsupported_colon (raw ++ gap) rest q.ahead
  rw [List.append_assoc, List.append_assoc, ← hahead, ← h.parts.1] at hsame
  exact hsame.trans h.supported

theorem KeyAt.front_quoted (hquote : startsQuote raw = true) {p' : Place} {rest : List Char}
    (hahead : p'.ahead = raw ++ (gap ++ ':' :: rest)) : ∃ q', KeyAt p' raw gap q' := by
  obtain ⟨hparts, hne, hgap, _⟩ := h.parts
  obtain ⟨_, r, left, hread, _⟩ := id h
  have hstarts : startsQuote p.ahead = true := by rw [hparts, startsQuote_append hne, hquote]
  rw [key, if_pos hstarts] at hread
  have hnext : (gap ++ ':' :: rest).head? ≠ some '\'' := by
    cases gap with
    | nil => simp
    | cons c gap =>
        intro hc
        obtain rfl : c = '\'' := by simpa using hc
        exact absurd (hgap _ List.mem_cons_self) (by decide)
  refine ⟨_, h.supports hahead, p'.move raw (gap ++ ':' :: rest), rest, ?_,
    spaces_eq_iff.2 ⟨rfl, hgap, by simp [isSpace]⟩, rfl⟩
  rw [key, if_pos (by rw [hahead, startsQuote_append hne, hquote])]
  exact quotedText_front hstarts hread hahead hnext

theorem KeyAt.front_plain (hplain : startsQuote raw = false) :
    endsIndicator q.ahead = true ∧ ∀ {p' : Place} {rest : List Char},
      p'.ahead = raw ++ (gap ++ ':' :: rest) → endsIndicator rest = true →
        ∃ q', KeyAt p' raw gap q' := by
  obtain ⟨hparts, hne, hgap, _⟩ := h.parts
  obtain ⟨_, r, left, hread, hspaces, hq⟩ := id h
  have hplain' : startsQuote p.ahead = false := by rw [hparts, startsQuote_append hne, hplain]
  obtain ⟨gap', rest, _, hrun, hgap', hlast, _, rfl⟩ := (key_plain_eq_ok hplain').1 hread
  obtain ⟨rfl, _⟩ : gap' = gap ∧ ':' :: rest = ':' :: left := by
    rw [Place.move, spaces_eq_iff.2 ⟨rfl, hgap', by simp [isSpace]⟩] at hspaces
    simpa using hspaces
  rw [hparts, ← List.append_assoc] at hrun
  obtain ⟨hends, hkeeps⟩ := keyRun_colon hrun
  refine ⟨hends, fun {p' rest} hahead hrest => ?_⟩
  refine ⟨_, h.supports hahead, p'.move raw (gap' ++ ':' :: rest), rest,
    (key_plain_eq_ok ?_).2 ⟨gap', rest, hahead, ?_, hgap, hlast, hne, rfl⟩,
    spaces_eq_iff.2 ⟨rfl, hgap, by simp [isSpace]⟩, rfl⟩
  · rw [hahead, startsQuote_append hne, hplain]
  · rw [hahead, ← List.append_assoc]
    exact hkeeps hrest

theorem KeyAt.form (hstops : StopsTrivia p.ahead) : KeyForm raw gap := by
  obtain ⟨hparts, hne, _⟩ := h.parts
  refine ⟨hne, fun rest => ?_, fun {p' rest} hahead hrest => ?_⟩
  · rw [hparts] at hstops
    cases raw with
    | nil => exact absurd rfl hne
    | cons c raw => exact hstops
  · cases hquote : startsQuote raw with
    | true => exact h.front_quoted hquote hahead
    | false => exact (h.front_plain hquote).2 hahead (hrest hquote)

end

/-! ### Scalars -/

/-- Unless a construct begins there that is not supported, a text is read as a scalar in front of
any rest that ends its line. -/
def ReadAsScalar (raw : List Char) : Prop :=
  ∀ {p : Place} {rest : List Char}, p.ahead = raw ++ rest → EndsLine .word rest →
    unsupported? true p.ahead = none → ∃ q, scalarText p = .ok (raw, q)

/-- A scalar's text is read in front of any rest that ends its line. -/
structure ScalarForm (raw : List Char) : Prop where
  ne_nil : raw ≠ []
  here : ∀ rest, valueIsBelow (raw ++ rest) = false
  solid : ∀ rest, ∀ c ∈ (raw ++ rest).head?, isSpace c = false
  reads : ∀ {p : Place} {rest : List Char}, p.ahead = raw ++ rest → EndsLine .word rest →
    ∃ q, scalarText p = .ok (raw, q)

theorem scalarText_eq_ok {p q : Place} {raw : List Char} :
    scalarText p = .ok (raw, q) ↔ unsupported? true p.ahead = none ∧
      (startsQuote p.ahead = true ∧ quotedText p = .ok (raw, q) ∧ EndsLine .word q.ahead ∨
        startsQuote p.ahead = false ∧ plainScalar p.ahead = (raw, q.ahead) ∧
          q = p.move raw q.ahead) := by
  rw [scalarText]
  constructor
  · intro h
    split at h
    · cases h
    · rename_i hsupported
      refine ⟨hsupported, ?_⟩
      split_ifs at h with hquote
      · obtain ⟨⟨text, next⟩, htext, h⟩ := bind_eq_ok.1 h
        obtain ⟨⟨⟩, hends, h⟩ := bind_eq_ok.1 h
        cases h
        exact .inl ⟨hquote, htext, lineEnds_iff.1 hends⟩
      · cases h
        exact .inr ⟨by simpa using hquote, rfl, rfl⟩
  · rintro ⟨hsupported, ⟨hquote, htext, hends⟩ | ⟨hquote, hplain, hq⟩⟩
    · rw [hsupported]
      simp only
      rw [if_pos hquote]
      exact bind_eq_ok.2 ⟨_, htext, bind_eq_ok.2 ⟨(), lineEnds_iff.2 hends, rfl⟩⟩
    · rw [hsupported]
      simp only
      rw [if_neg (by simp [hquote]), hplain, ← hq]

theorem scalar_quoted {p q : Place} {raw : List Char} (h : quotedText p = .ok (raw, q))
    (hquote : startsQuote p.ahead = true) :
    raw ≠ [] ∧ q.position = p.position.pass raw ∧ ReadAsScalar raw := by
  have hpasses := passes_quotedText h
  obtain ⟨quote, cs, taken, _, _, rfl, hq⟩ := quotedText_eq_ok.1 h
  refine ⟨by simp, by rw [hq]; rfl, fun {p' rest} hahead hends hsupported => ?_⟩
  have htext := quotedText_front hquote h hahead (head_of_endsLine hends)
  refine ⟨_, scalarText_eq_ok.2 ⟨hsupported, .inl ⟨?_, htext, hends⟩⟩⟩
  rw [hpasses, startsQuote_append (by simp)] at hquote
  rw [hahead, startsQuote_append (by simp), hquote]

theorem scalar_plain {p : Place} {raw left : List Char} (h : plainScalar p.ahead = (raw, left))
    (hplain : startsQuote p.ahead = false) (hhere : valueIsBelow p.ahead = false)
    (hsolid : ∀ c ∈ p.ahead.head?, isSpace c = false) :
    raw ≠ [] ∧ EndsLine .word left ∧ ReadAsScalar raw := by
  have hparts := plainScalar_append p.ahead
  rw [h] at hparts
  rw [plainScalar, Prod.mk.injEq] at h
  obtain ⟨blanks, hrun, hblanks, hlast⟩ := trimSpaces_eq_iff.1 h.1
  have hne : raw ≠ [] := by
    rintro rfl
    have hspaces : spaces p.ahead = ([], p.ahead) := spaces_eq_iff.2 ⟨rfl, nofun, hsolid⟩
    have hbelow := (plainRun_blank_iff.1 (by rw [hrun]; exact hblanks)).1
    rw [hspaces, hhere] at hbelow
    cases hbelow
  have hstarts : raw <+: plainRun false (raw ++ left) := by
    rw [hparts, hrun]
    exact List.prefix_append _ _
  have hgoes := plainRun_append hstarts hne hlast
  have hleft : plainRun false left = blanks := by
    rw [← hparts, hgoes left] at hrun
    exact List.append_cancel_left hrun
  obtain ⟨hbelow, hsign⟩ := plainRun_blank_iff.1 (by rw [hleft]; exact hblanks)
  refine ⟨hne, ⟨hbelow, fun _ => hsign rfl⟩, fun {p' rest} hahead hends hsupported => ?_⟩
  have htrim : trimSpaces (plainRun false p'.ahead) = raw := by
    rw [hahead, hgoes rest]
    exact trimSpaces_eq_iff.2 ⟨_, rfl,
      plainRun_blank_iff.2 ⟨hends.below, fun _ => hends.apart rfl⟩, hlast⟩
  refine ⟨p'.move raw rest, scalarText_eq_ok.2 ⟨hsupported, .inr ⟨?_, ?_, rfl⟩⟩⟩
  · rw [← hparts, startsQuote_append hne] at hplain
    rw [hahead, startsQuote_append hne, hplain]
  · simp only [plainScalar, htrim]
    rw [hahead, List.drop_left]
    rfl

/-- A scalar that was read ends its line, and its text is one in its form. -/
theorem scalarForm_of_scalarText {p q : Place} {raw : List Char} (h : scalarText p = .ok (raw, q))
    (hhere : valueIsBelow p.ahead = false) (hsolid : ∀ c ∈ p.ahead.head?, isSpace c = false) :
    ScalarForm raw ∧ EndsLine .word q.ahead ∧ q.position = p.position.pass raw := by
  have hpasses := passes_scalarText h
  obtain ⟨hsupported, hform⟩ := scalarText_eq_ok.1 h
  obtain ⟨hne, hends, hposition, hreads⟩ : raw ≠ [] ∧ EndsLine .word q.ahead ∧
      q.position = p.position.pass raw ∧ ReadAsScalar raw := by
    rcases hform with ⟨hquote, htext, hends⟩ | ⟨hplain, hrun, hq⟩
    · obtain ⟨hne, hposition, hreads⟩ := scalar_quoted htext hquote
      exact ⟨hne, hends, hposition, hreads⟩
    · obtain ⟨hne, hends, hreads⟩ := scalar_plain hrun hplain hhere hsolid
      exact ⟨hne, hends, by rw [hq]; rfl, hreads⟩
  refine ⟨?_, hends, hposition⟩
  rw [hpasses] at hsupported hhere hsolid
  obtain ⟨c, cs, rfl⟩ := List.exists_cons_of_ne_nil hne
  refine ⟨hne, fun _ => hhere, fun _ => hsolid, fun {p' rest} hahead hends' => ?_⟩
  refine hreads hahead hends' ?_
  rw [hahead, ← hsupported]
  refine unsupported_congr nofun ?_
  cases cs with
  | nil => exact (endsIndicator_of_endsLine hends').trans (endsIndicator_of_endsLine hends).symm
  | cons => rfl

end Codemod.Yaml
