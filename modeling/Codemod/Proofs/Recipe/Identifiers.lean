import Codemod.Proofs.Java.Scanning
import Codemod.Recipe.Option

/-!
The names that an option for an identifier takes, against the tokens of the text. The scan makes
one token of every word; the check takes each word that is no keyword. The main statement says that
the two agree but for the words that stand for a value: the check takes them, and the scan makes
literals of them.
-/

namespace Codemod.Java

open Codemod.Tree Scan

/-- The text is one word. -/
def IsWord (text : String) : Prop :=
  ∃ c cs, text.toList = c :: cs ∧ startsWord c = true ∧ ∀ d ∈ cs, continuesWord d = true

/-- The tokens of a text that is a single token, without trivia. -/
def lone (kind : TokenKind) (text : String) : Tokens :=
  { ahead := [⟨⟨kind, "", text⟩, 0⟩], last := ⟨⟨.eof, "", ""⟩, Text.size text.toList⟩ }

/-! ### The kind of a word -/

theorem wordKind_eq_identifier_iff {word : String} :
    wordKind word = .identifier ↔ word ∉ wordLiterals ∧ isKeyword word = false := by
  unfold wordKind
  split_ifs with hliteral hkeyword
  · simpa using fun h => absurd (List.contains_iff_mem.1 hliteral) h
  · simp [hkeyword]
  · exact ⟨fun _ => ⟨fun h => hliteral (List.contains_iff_mem.2 h), by simpa using hkeyword⟩,
      fun _ => rfl⟩

theorem wordKind_of_wordLiterals {word : String} (h : word ∈ wordLiterals) :
    wordKind word = .literal :=
  if_pos (List.contains_iff_mem.2 h)

theorem isWord_of_wordLiterals {word : String} (h : word ∈ wordLiterals) :
    IsWord word ∧ isKeyword word = false := by
  simp only [wordLiterals, List.mem_cons, List.not_mem_nil, or_false] at h
  rcases h with rfl | rfl | rfl
  · exact ⟨⟨'t', ['r', 'u', 'e'], rfl, by decide, List.all_eq_true.1 (by decide)⟩, by decide⟩
  · exact ⟨⟨'f', ['a', 'l', 's', 'e'], rfl, by decide, List.all_eq_true.1 (by decide)⟩, by decide⟩
  · exact ⟨⟨'n', ['u', 'l', 'l'], rfl, by decide, List.all_eq_true.1 (by decide)⟩, by decide⟩

/-! ### The token of a word -/

theorem splits_word {word : String} (h : IsWord word) : Splits ⟨wordKind word, "", word⟩ [] := by
  obtain ⟨c, cs, hword, hstart, hcontinue⟩ := h
  have htaken := takeWhile_of_head hcontinue (show ∀ d ∈ ([] : List Char).head?, _ by simp)
  have hblank : Text.isBlank c = false :=
    not_isBlank_of_continuesWord (continuesWord_of_startsWord hstart)
  have hslash : c ≠ '/' := by
    rintro rfl
    exact absurd hstart (by decide)
  constructor
  · simp only [hword, List.append_nil]
    exact skips_nil_cons.2 ⟨hblank, fun h => absurd h hslash⟩
  · refine ⟨c, cs, hword, fun offset => ?_⟩
    simp only [tokenText, if_pos hstart, htaken.1, htaken.2, ← hword, String.ofList_toList]

theorem tokenize_splits {kind : TokenKind} {text : String} (h : Splits ⟨kind, "", text⟩ []) :
    tokenize text = .ok (lone kind text) := by
  obtain ⟨c, cs, htext, hread⟩ := h.reads
  have hskip := h.skips 0
  have hread := hread (0 + Text.size [])
  simp only [String.toList_empty, List.append_nil, List.nil_append] at htext hskip hread
  rw [htext] at hskip
  have hend : ∀ limit offset, tokensWithin limit offset [] = .ok (endTokens [] offset) := by
    intro limit offset
    cases limit <;> rfl
  rw [tokenize, htext, List.length_cons, tokensWithin, hskip]
  simp only [bind, Except.bind, hread, hend]
  simp [endTokens, Tokens.cons, lone, Text.size]

theorem tokenize_word {word : String} (h : IsWord word) :
    tokenize word = .ok (lone (wordKind word) word) :=
  tokenize_splits (splits_word h)

theorem isWord_of_reads {text : String} (h : Reads .identifier text.toList []) :
    IsWord text ∧ wordKind text = .identifier := by
  obtain ⟨c, cs, htext, hread⟩ := h
  have hread := hread 0
  rw [List.append_nil, tokenText] at hread
  split_ifs at hread with hstart hnumber hstring hblock hcharacter
  · simp only [Except.ok.injEq, Prod.mk.injEq, htext, List.cons.injEq, true_and] at hread
    obtain ⟨hkind, htaken, -⟩ := hread
    refine ⟨⟨c, cs, htext, hstart, fun d hd => List.mem_takeWhile_imp (htaken.symm ▸ hd)⟩, ?_⟩
    rwa [htaken, ← htext, String.ofList_toList] at hkind
  · simp at hread
  · split at hread <;> simp at hread
  · split at hread <;> simp at hread
  · split at hread <;> simp at hread

theorem tokenize_eq_identifier_iff {text : String} :
    tokenize text = .ok (lone .identifier text) ↔
      IsWord text ∧ wordKind text = .identifier := by
  constructor
  · intro h
    cases scans_tokensWithin h with
    | cons hsplits _ =>
        have hbehind : printTokens [(lone .identifier text).last.token] = "" := rfl
        exact isWord_of_reads (by simpa [hbehind] using hsplits.reads)
  · rintro ⟨hword, hkind⟩
    rw [tokenize_word hword, hkind]

end Codemod.Java

namespace Codemod.Recipe

open Codemod.Java Codemod.Tree

theorem isJavaIdentifier_iff {text : String} :
    isJavaIdentifier text = true ↔ IsWord text ∧ isKeyword text = false := by
  unfold isJavaIdentifier IsWord
  cases text.toList with
  | nil => simp
  | cons c cs => simp [and_assoc]

/-- The check for an identifier takes the texts that are scanned as one identifier, and the words
that are scanned as one literal. -/
theorem javaIdentifier_check_eq_none_iff (text : String) :
    Constraint.javaIdentifier.check (.text text) = none ↔
      tokenize text = .ok (lone .identifier text) ∨
        text ∈ wordLiterals ∧ tokenize text = .ok (lone .literal text) := by
  have hcheck : Constraint.javaIdentifier.check (.text text) = none ↔
      isJavaIdentifier text = true := by
    simp [Constraint.check, Constraint.checkText]
  rw [hcheck, isJavaIdentifier_iff, tokenize_eq_identifier_iff, wordKind_eq_identifier_iff]
  constructor
  · rintro ⟨hword, hkeyword⟩
    by_cases hliteral : text ∈ wordLiterals
    · refine .inr ⟨hliteral, ?_⟩
      rw [tokenize_word hword, wordKind_of_wordLiterals hliteral]
    · exact .inl ⟨hword, hliteral, hkeyword⟩
  · rintro (⟨hword, -, hkeyword⟩ | ⟨hliteral, -⟩)
    · exact ⟨hword, hkeyword⟩
    · exact isWord_of_wordLiterals hliteral

example : Constraint.javaIdentifier.check (.text "true") = none := by decide

end Codemod.Recipe
