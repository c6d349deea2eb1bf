import Codemod.Proofs.Yaml.CopiedKeys
import Codemod.Proofs.Yaml.LineTexts

/-!
The texts of keys and scalars, and the lines that they stand on. The main statement says that the only
line breaks in them are those behind a backslash between double quotes, and that a quote without its
closing one is refused.
-/

namespace Codemod.Yaml

open Codemod.Tree

theorem Enclosed.break_escaped {quote : Char} {inner : List Char} (h : Enclosed quote inner) {c : Char}
    (hc : c ∈ inner) (hbreak : isBreak c = true) : quote = '"' ∧ c ∈ escapes inner := by
  induction h with
  | nil => cases hc
  | @plain d cs hbreak' _ hescape _ ih =>
      have hrest : c ∈ cs := (List.mem_cons.1 hc).resolve_left fun heq => by simp [heq, hbreak'] at hbreak
      obtain ⟨hdouble, hmem⟩ := ih hrest
      refine ⟨hdouble, ?_⟩
      rw [escapes.eq_2]
      · exact hmem
      · rintro e rest rfl
        exact absurd rfl (hescape hdouble)
  | @escape cs hdouble d _ ih =>
      refine ⟨hdouble, ?_⟩
      rw [escapes]
      rcases List.mem_cons.1 hc with rfl | hc
      · cases hbreak
      · exact List.mem_cons.2 ((List.mem_cons.1 hc).imp_right fun hc => (ih hc).2)
  | doubled hsingle _ ih =>
      subst hsingle
      simp only [List.mem_cons] at hc
      rcases hc with rfl | rfl | hc
      · cases hbreak
      · cases hbreak
      · exact absurd (ih hc).1 (by decide)

theorem mem_of_escapes {cs : List Char} {c : Char} (h : c ∈ escapes cs) : c ∈ cs := by
  fun_induction escapes cs with
  | case1 d rest ih =>
      refine List.mem_cons_of_mem _ (List.mem_cons.2 ?_)
      exact (List.mem_cons.1 h).imp_right ih
  | case2 d rest _ ih => exact List.mem_cons_of_mem _ (ih h)
  | case3 => cases h

/-! ### Keys and scalars -/

theorem LineText.breaks_iff {raw : List Char} (h : LineText raw) :
    (∀ c ∈ raw, isBreak c = false) ↔ ∀ inner, raw = '"' :: (inner ++ ['"']) →
      ∀ c ∈ escapes inner, isBreak c = false := by
  constructor
  · rintro hline inner rfl c hc
    exact hline c (List.mem_cons_of_mem _ (List.mem_append_left _ (mem_of_escapes hc)))
  · intro hescapes
    cases h with
    | plain hline => exact hline
    | @quoted quote inner hquote h =>
        have hinner : ∀ c ∈ inner, isBreak c = false := fun c hc => by
          refine Bool.eq_false_iff.2 fun hbreak => ?_
          obtain ⟨rfl, hmem⟩ := h.break_escaped hc hbreak
          exact Bool.eq_false_iff.1 (hescapes inner rfl c hmem) hbreak
        simpa [isBreak_of_quote hquote, or_imp, forall_and] using hinner

theorem LineText.closed {quote : Char} {rest : List Char} (h : LineText (quote :: rest))
    (hquote : quote = '"' ∨ quote = '\'') : ∃ inner, rest = inner ++ [quote] ∧ Enclosed quote inner := by
  cases h with
  | plain _ hplain => exact absurd (startsQuote_iff.2 hquote) (Bool.eq_false_iff.1 hplain)
  | quoted _ h => exact ⟨_, rfl, h⟩

theorem refused_of_open {p : Place} {quote : Char} {rest : List Char} (hahead : p.ahead = quote :: rest)
    (hquote : quote = '"' ∨ quote = '\'') (hopen : ∀ inner left, ¬ Closes quote inner left rest) :
    key p = .error (p.expected .closingQuote) ∧ scalarText p = .error (p.expected .closingQuote) := by
  have hstarts : startsQuote p.ahead = true := by rw [hahead, startsQuote_iff]; exact hquote
  have htext : quotedText p = .error (p.expected .closingQuote) := by
    rw [quotedText, hahead]
    cases hrun : quotedRun quote rest with
    | none => simp only [hrun]
    | some run =>
        obtain ⟨inner, _, hcloses⟩ := closes_of_quotedRun hrun
        exact absurd hcloses (hopen inner run.2)
  have hsupported : unsupported? true p.ahead = none := by
    rw [hahead]
    rcases hquote with rfl | rfl <;> rfl
  refine ⟨by rw [key, if_pos hstarts, htext], ?_⟩
  rw [scalarText, hsupported]
  simp only
  rw [if_pos hstarts, htext]
  rfl

/-- The key of the node, if it is an entry, and its text, if it is a scalar, are texts of lines. -/
def InLines (n : Node) : Prop :=
  ∀ raw, keyText n = some raw ∨ scalarText? n = some raw → LineText raw.toList

theorem inLines_scalarAt {indent : Nat} {p q : Place} {value : Node}
    (h : ScalarAt indent p value q) : InLines value := by
  have hscalar : ∀ {blanks raw : List Char}, LineText raw → InLines (scalarNode blanks raw) := by
    rintro blanks raw hraw text (hkey | htext)
    · cases hkey
    · obtain rfl := Option.some.inj htext
      rwa [String.toList_ofList]
  cases h with
  | inLine _ _ hraw => exact hscalar (lineText_scalarText hraw)
  | missing => exact hscalar (.plain nofun rfl)

theorem inLines_of_parseDocument {source : String} {document : Node}
    (h : parseDocument source = .ok document) : document.Everywhere InLines := by
  refine everywhere_of_parseDocument (fun n hentry hscalar => ?_) inLines_scalarAt
    (fun value _ hkey => ?_) h
  · rintro raw (hkey | htext)
    · simp [keyText, entryKey?, hentry] at hkey
    · simp [scalarText_eq_none hscalar] at htext
  · obtain ⟨_, r, left, hread, _⟩ := hkey
    rintro raw (hraw | hraw)
    · rw [keyText_entryNode] at hraw
      obtain rfl := Option.some.inj hraw
      rw [String.toList_ofList]
      exact lineText_key hread
    · cases hraw

/-- The keys and scalars of a parsed document hold no line break, but for one behind a backslash between
double quotes, and where they begin with a quote, they end with it. A place where a quote is not closed
in this way is refused, whether a key or a scalar is to be read there. -/
theorem line_breaks_escaped (source : String) (p : Place) :
    (∀ document, parseDocument source = .ok document →
      ∀ n ∈ document.preorder, ∀ raw, keyText n = some raw ∨ scalarText? n = some raw →
        ((∀ c ∈ raw.toList, isBreak c = false) ↔ ∀ inner, raw.toList = '"' :: (inner ++ ['"']) →
          ∀ c ∈ escapes inner, isBreak c = false) ∧
        ∀ quote rest, raw.toList = quote :: rest → (quote = '"' ∨ quote = '\'') →
          ∃ inner, rest = inner ++ [quote] ∧ Enclosed quote inner) ∧
    ∀ quote rest, p.ahead = quote :: rest → (quote = '"' ∨ quote = '\'') →
      (∀ inner left, ¬ Closes quote inner left rest) →
        key p = .error (p.expected .closingQuote) ∧
          scalarText p = .error (p.expected .closingQuote) := by
  refine ⟨fun document hparse n hn raw hraw => ?_, fun quote rest => refused_of_open⟩
  have htext := inLines_of_parseDocument hparse n hn raw hraw
  refine ⟨htext.breaks_iff, fun quote rest hstarts => ?_⟩
  rw [hstarts] at htext
  exact htext.closed

/-- A backslash takes a line break into a scalar; without one the quote is not closed. -/
theorem line_breaks_escaped_scalar :
    (∃ document n, parseDocument "'a': 1\nk: \"x\\\ny\"\n" = .ok document ∧ n ∈ document.preorder ∧
      scalarText? n = some "\"x\\\ny\"" ∧ ¬ ∀ c ∈ "\"x\\\ny\"".toList, isBreak c = false) ∧
    scalarText (Place.start ['"', 'x', '\n', 'y', '"']) = .error (.expected .closingQuote 1 0) := by
  obtain ⟨hread, hrefused⟩ := line_breaks_escaped "'a': 1\nk: \"x\\\ny\"\n"
    (.start ['"', 'x', '\n', 'y', '"'])
  constructor
  · have hscalars : (parseDocument "'a': 1\nk: \"x\\\ny\"\n").toOption.any (fun document =>
        document.preorder.any fun n => scalarText? n == some "\"x\\\ny\"") = true := by
      decide +kernel
    cases hdocument : parseDocument "'a': 1\nk: \"x\\\ny\"\n" with
    | error e =>
        rw [hdocument] at hscalars
        cases hscalars
    | ok document =>
        rw [hdocument] at hscalars
        obtain ⟨n, hn, htext⟩ := List.any_eq_true.1 hscalars
        have hraw : scalarText? n = some "\"x\\\ny\"" := by simpa using htext
        refine ⟨document, n, rfl, hn, hraw, fun hline => ?_⟩
        have hescapes := (hread document hdocument n hn _ (.inr hraw)).1.1 hline
          ['x', '\\', '\n', 'y'] (by decide +kernel) '\n' (by decide)
        cases hescapes
  · refine (hrefused _ _ rfl (.inl rfl) fun inner left hcloses => ?_).2
    have hnone : quotedRun '"' ['x', '\n', 'y', '"'] = none := by decide
    rw [quotedRun_of_closes (.inl rfl) hcloses] at hnone
    cases hnone

end Codemod.Yaml
