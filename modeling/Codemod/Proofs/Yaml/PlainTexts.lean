import Codemod.Proofs.Text.Parts
import Codemod.Proofs.Yaml.Layout
import Codemod.Proofs.Yaml.Written
import Codemod.Text.Alphabetic

/-!
Keys and values that need no quotes: letters, digits, underscores and hyphens, with dots between the
segments of a key. No such character means anything to the scanner, but for a hyphen that is a value of
its own.
-/

namespace Codemod.Yaml

open Codemod.Text Codemod.Tree

/-- A letter, a digit, an underscore or a hyphen. -/
def IsWordChar (c : Char) : Prop :=
  isAlphanumeric c = true ∨ c = '_' ∨ c = '-'

instance (c : Char) : Decidable (IsWordChar c) :=
  inferInstanceAs (Decidable (_ ∨ _ ∨ _))

/-- A character of a word, or a dot. -/
def IsPlainChar (c : Char) : Prop :=
  IsWordChar c ∨ c = '.'

instance (c : Char) : Decidable (IsPlainChar c) :=
  inferInstanceAs (Decidable (_ ∨ _))

/-- A key of one segment or more, which are words. It begins with a letter. -/
structure PlainKey where
  segments : List String
  ne_nil : segments ≠ []
  words : ∀ s ∈ segments, s ≠ "" ∧ ∀ c ∈ s.toList, IsWordChar c
  letter : ∀ c ∈ (segments.head ne_nil).toList.head?, isAlphabetic c = true

/-- The key as it is written. -/
def PlainKey.text (key : PlainKey) : String :=
  String.intercalate "." key.segments

/-- The text is a word. -/
def isWord (s : String) : Bool :=
  s != "" && s.toList.all fun c => decide (IsWordChar c)

/-- The key of segments that pass the checks. -/
def PlainKey.ofSegments (first : String) (others : List String)
    (hwords : (first :: others).all isWord = true)
    (hletter : first.toList.head?.all isAlphabetic = true) : PlainKey where
  segments := first :: others
  ne_nil := List.cons_ne_nil first others
  words s hs := by simpa [isWord] using List.all_eq_true.1 hwords s hs
  letter := by simpa [Option.all_eq_true] using hletter

/-- A value without quotes, possibly empty. -/
structure PlainValue where
  text : String
  plain : ∀ c ∈ text.toList, IsPlainChar c

/-- The value of a text that passes the check. -/
def PlainValue.ofText (text : String) (h : (text.toList.all fun c => decide (IsPlainChar c)) = true) :
    PlainValue :=
  ⟨text, fun c hc => of_decide_eq_true (List.all_eq_true.1 h c hc)⟩

/-! ### Characters -/

/-- The characters that mean something to the scanner, but for hyphens and dots. -/
def signs : List Char :=
  [' ', '\t', '\n', '\r', '#', ':', '"', '\'', '?', '[', '\x7b', '|', '>', '&', '*', '!', '%', '@',
    '\x60']

theorem not_mem_signs {c : Char} (h : IsPlainChar c) : c ∉ signs := by
  have hsigns : (signs.all fun c => decide (¬ IsPlainChar c)) = true := by decide
  exact fun hc => of_decide_eq_true (List.all_eq_true.1 hsigns c hc) h

section
variable {c : Char} (h : c ∉ signs)
include h

theorem isSpace_of_signs : isSpace c = false := by
  simp only [signs, List.mem_cons, not_or] at h
  simp [isSpace, h]

theorem isBreak_of_signs : isBreak c = false := by
  simp only [signs, List.mem_cons, not_or] at h
  simp [isBreak, h]

theorem startsQuote_of_signs (cs : List Char) : startsQuote (c :: cs) = false := by
  simp only [signs, List.mem_cons, not_or] at h
  simp [startsQuote, h]

theorem unsupported_of_signs {inValue : Bool} {cs : List Char}
    (hdash : c = '-' → inValue = true ∧ endsIndicator cs = false) (hdot : c = '.' → inValue = true) :
    unsupported? inValue (c :: cs) = none := by
  have hmarkers : (!inValue && startsMarker "---" (c :: cs)) = false ∧
      (!inValue && startsMarker "..." (c :: cs)) = false := by
    cases inValue with
    | true => exact ⟨rfl, rfl⟩
    | false =>
        have hc : c ≠ '-' ∧ c ≠ '.' := by simpa using And.intro hdash hdot
        simp [startsMarker, hc.1.symm, hc.2.symm]
  simp only [signs, List.mem_cons, not_or] at h
  unfold unsupported?
  rw [hmarkers.1, hmarkers.2, if_neg (by simp), if_neg (by simp)]
  split <;> simp_all

end

/-! ### Runs -/

section
variable {raw : List Char} (h : ∀ c ∈ raw, c ∉ signs) (afterSpace : Bool) (rest : List Char)
include h

theorem keyRun_plain (hrest : endsIndicator rest = true) :
    keyRun afterSpace (raw ++ ':' :: rest) = raw := by
  induction raw generalizing afterSpace with
  | nil => simp [keyRun, hrest]
  | cons c raw ih =>
      obtain ⟨hc, hraw⟩ := List.forall_mem_cons.1 h
      have hbreak := isBreak_of_signs hc
      simp only [signs, List.mem_cons, not_or] at hc
      simp [keyRun, hbreak, hc, ih hraw]

theorem plainRun_plain (hne : raw ≠ []) :
    plainRun afterSpace (raw ++ rest) = raw ++ plainRun false rest := by
  induction raw generalizing afterSpace with
  | nil => exact absurd rfl hne
  | cons c raw ih =>
      obtain ⟨hc, hraw⟩ := List.forall_mem_cons.1 h
      have hgo : (isBreak c || afterSpace && decide (c = '#')) = false := by
        have hbreak := isBreak_of_signs hc
        simp only [signs, List.mem_cons, not_or] at hc
        simp [hbreak, hc]
      rw [List.cons_append, plainRun, hgo, if_neg Bool.false_ne_true, isSpace_of_signs hc]
      cases raw with
      | nil => rfl
      | cons d raw => rw [ih hraw false (by simp)]; rfl

end

/-! ### Keys -/

theorem keyForm_of_signs {c : Char} {cs : List Char} (hletter : c ≠ '-' ∧ c ≠ '.')
    (h : ∀ d ∈ c :: cs, d ∉ signs) : KeyForm (c :: cs) [] := by
  have hc := (List.forall_mem_cons.1 h).1
  have hlast : ∀ d ∈ (c :: cs).getLast?, isSpace d = false := fun d hd =>
    isSpace_of_signs (h d (List.mem_of_getLast? hd))
  refine ⟨by simp, fun rest => ?_, fun {p rest} hahead hends => ?_⟩
  · have hsign : c ≠ '#' := fun hsign => hc (by rw [hsign]; decide)
    exact ⟨isSpace_of_signs hc, isBreak_of_signs hc, hsign⟩
  · have hplain : startsQuote p.ahead = false := by
      rw [hahead]
      exact startsQuote_of_signs hc _
    have hrun : keyRun false p.ahead = c :: cs := by
      rw [hahead]
      exact keyRun_plain h false rest (hends (startsQuote_of_signs hc cs))
    refine ⟨_, ?_, p.move (c :: cs) (':' :: rest), rest,
      (key_plain_eq_ok hplain).2 ⟨[], rest, hahead, ?_, nofun, hlast, by simp, rfl⟩,
      spaces_eq_iff.2 ⟨rfl, nofun, by simp [isSpace]⟩, rfl⟩
    · rw [hahead]
      exact unsupported_of_signs hc (fun hdash => absurd hdash hletter.1)
        fun hdot => absurd hdot hletter.2
    · rw [hrun, List.append_nil]

namespace PlainKey

variable (key : PlainKey)

theorem toList_text : key.text.toList = join '.' (key.segments.map String.toList) := by
  rw [text, String.toList_intercalate]
  exact intercalate_eq_join '.' _

theorem plain : ∀ c ∈ key.text.toList, IsPlainChar c := by
  have hjoin : ∀ parts : List (List Char), (∀ part ∈ parts, ∀ c ∈ part, IsPlainChar c) →
      ∀ c ∈ join '.' parts, IsPlainChar c := by
    intro parts
    fun_induction join '.' parts with
    | case1 => nofun
    | case2 part => exact fun h => h part List.mem_cons_self
    | case3 part parts _ ih =>
        intro h c hc
        obtain ⟨hpart, hparts⟩ := List.forall_mem_cons.1 h
        rcases List.mem_append.1 hc with hc | hc
        · exact hpart c hc
        · exact (List.mem_cons.1 hc).elim .inr (ih hparts c)
  rw [toList_text]
  refine hjoin _ (List.forall_mem_map.2 fun s hs c hc => .inl ((key.words s hs).2 c hc))

theorem exists_letter : ∃ c cs, key.text.toList = c :: cs ∧ isAlphabetic c = true := by
  obtain ⟨segments, hne, hwords, hletter⟩ := key
  obtain ⟨s, segments, rfl⟩ := List.exists_cons_of_ne_nil hne
  obtain ⟨c, cs, hs⟩ := List.exists_cons_of_ne_nil
    (String.toList_eq_nil_iff.not.2 (hwords s List.mem_cons_self).1)
  rw [List.head_cons, hs] at hletter
  have hc := hletter c rfl
  rw [toList_text]
  cases segments with
  | nil => exact ⟨c, cs, by simpa [join] using hs, hc⟩
  | cons t segments => exact ⟨c, _, by simp [join, hs]; rfl, hc⟩

theorem form : KeyForm key.text.toList [] := by
  obtain ⟨c, cs, htext, hletter⟩ := key.exists_letter
  have hplain := key.plain
  rw [htext] at hplain ⊢
  refine keyForm_of_signs ⟨?_, ?_⟩ fun d hd => not_mem_signs (hplain d hd)
  · rintro rfl
    exact absurd hletter (by decide)
  · rintro rfl
    exact absurd hletter (by decide)

theorem keySegments_text : keySegments key.text = key.segments := by
  obtain ⟨c, cs, htext, hletter⟩ := key.exists_letter
  have hc := not_mem_signs (key.plain c (by simp [htext]))
  simp only [signs, List.mem_cons, not_or] at hc
  have hdots : ∀ part ∈ key.segments.map String.toList, '.' ∉ part :=
    List.forall_mem_map.2 fun s hs hdot => absurd ((key.words s hs).2 '.' hdot) (by decide)
  rw [keySegments, isQuoted_of_plain htext (by simp [hc]) (by simp [hc]), if_neg Bool.false_ne_true,
    toList_text, splitOn_join (by simpa using key.ne_nil), flatMap_splitOn hdots]
  simp

end PlainKey

/-! ### Values -/

theorem PlainValue.form {value : PlainValue} (hsome : value.text ≠ "") (hdash : value.text ≠ "-") :
    ScalarForm value.text.toList := by
  have hsigns : ∀ c ∈ value.text.toList, c ∉ signs := fun c hc => not_mem_signs (value.plain c hc)
  have hdash' : value.text.toList ≠ ['-'] := fun htext => hdash (String.toList_injective htext)
  obtain ⟨c, cs, htext⟩ := List.exists_cons_of_ne_nil (String.toList_eq_nil_iff.not.2 hsome)
  rw [htext] at hsigns hdash' ⊢
  have hc := (List.forall_mem_cons.1 hsigns).1
  have hlast : ∀ d ∈ (c :: cs).getLast?, isSpace d = false := fun d hd =>
    isSpace_of_signs (hsigns d (List.mem_of_getLast? hd))
  refine ⟨by simp, fun rest => ?_, fun rest => ?_, fun {p rest} hahead hends => ?_⟩
  · have hsign : c ≠ '#' := fun hsign => hc (by rw [hsign]; decide)
    simp [valueIsBelow, isBreak_of_signs hc, hsign]
  · simpa using isSpace_of_signs hc
  · have htrim : trimSpaces (plainRun false p.ahead) = c :: cs := by
      rw [hahead, plainRun_plain hsigns false rest (by simp)]
      exact trimSpaces_eq_iff.2 ⟨_, rfl,
        plainRun_blank_iff.2 ⟨hends.below, fun _ => hends.apart rfl⟩, hlast⟩
    refine ⟨p.move (c :: cs) rest, scalarText_eq_ok.2 ⟨?_, .inr ⟨?_, ?_, rfl⟩⟩⟩
    · rw [hahead]
      refine unsupported_of_signs hc (fun hc => ⟨rfl, ?_⟩) fun _ => rfl
      cases cs with
      | nil => exact absurd (by rw [hc]) hdash'
      | cons d cs =>
          have hd := hsigns d (by simp)
          simp [endsIndicator, isSpace_of_signs hd, isBreak_of_signs hd]
    · rw [hahead]
      exact startsQuote_of_signs hc _
    · simp only [plainScalar, htrim]
      rw [hahead, List.drop_left]
      rfl

end Codemod.Yaml
