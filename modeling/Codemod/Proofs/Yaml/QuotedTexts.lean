import Codemod.Proofs.Yaml.CopiedKeys
import Codemod.Proofs.Yaml.PlainTexts
import Codemod.Recipes.Deletion

/-!
Writing a text in quotes. The main statement says that a text of one line, written in either kind of
quotes, is read back as it is: as a key and as a scalar, by the reader of quotes, and by the guard of a
deletion.
-/

namespace Codemod.Yaml

open Codemod.Tree Codemod.Recipes.Deletion

/-! ### Writing -/

/-- The characters with each single quote written twice. -/
def doubleQuotes (cs : List Char) : List Char :=
  cs.flatMap fun c => if c = '\'' then ['\'', '\''] else [c]

/-- The text between single quotes. -/
def singleQuote (s : String) : String :=
  String.ofList ('\'' :: (doubleQuotes s.toList ++ ['\'']))

/-- The texts that stand for a text between quotes of either kind. -/
inductive QuotedAs (s : String) : String → Prop where
  | single : QuotedAs s (singleQuote s)
  | double : QuotedAs s (KeyPath.quote s)

theorem undouble_doubleQuotes (cs : List Char) : undouble (doubleQuotes cs) = cs := by
  induction cs with
  | nil => rfl
  | cons c cs ih =>
      rw [doubleQuotes, List.flatMap_cons]
      split_ifs with hc
      · subst hc
        exact congrArg (List.cons '\'') ih
      · rw [List.singleton_append, undouble.eq_2 _ _ fun _ hquote _ => absurd hquote hc]
        exact congrArg (List.cons c) ih

theorem unescape_escapeQuotes (cs : List Char) : unescape (KeyPath.escapeQuotes cs) = cs := by
  induction cs with
  | nil => rfl
  | cons c cs ih =>
      rw [KeyPath.escapeQuotes, List.flatMap_cons]
      split_ifs with hc
      · have hescaped : escaped c = c := by rcases hc with rfl | rfl <;> rfl
        exact congrArg₂ List.cons hescaped ih
      · rw [not_or] at hc
        rw [List.singleton_append, unescape.eq_2 _ _ fun _ _ hescape _ => absurd hescape hc.2]
        exact congrArg (List.cons c) ih

section
variable {cs : List Char} (h : ∀ c ∈ cs, isBreak c = false)
include h

theorem enclosed_doubleQuotes : Enclosed '\'' (doubleQuotes cs) := by
  induction cs with
  | nil => exact .nil
  | cons c cs ih =>
      obtain ⟨hc, hcs⟩ := List.forall_mem_cons.1 h
      rw [doubleQuotes, List.flatMap_cons]
      split_ifs with hquote
      · exact .doubled rfl (ih hcs)
      · exact .plain hc hquote (by simp) (ih hcs)

theorem enclosed_escapeQuotes : Enclosed '"' (KeyPath.escapeQuotes cs) := by
  induction cs with
  | nil => exact .nil
  | cons c cs ih =>
      obtain ⟨hc, hcs⟩ := List.forall_mem_cons.1 h
      rw [KeyPath.escapeQuotes, List.flatMap_cons]
      split_ifs with hsign
      · exact .escape rfl c (ih hcs)
      · rw [not_or] at hsign
        exact .plain hc hsign.1 (fun _ => hsign.2) (ih hcs)

end

/-! ### Reading -/

section
variable {quote : Char} (hquote : quote = '"' ∨ quote = '\'') {inner : List Char}
  (h : Enclosed quote inner)
include hquote

theorem unsupported_quote (inValue : Bool) (cs : List Char) :
    unsupported? inValue (quote :: cs) = none := by
  rcases hquote with rfl | rfl <;> cases inValue <;> rfl

theorem stopsTrivia_quote (cs : List Char) : StopsTrivia (quote :: cs) := by
  rcases hquote with rfl | rfl <;> exact ⟨rfl, rfl, by decide⟩

include h

theorem keyForm_enclosed : KeyForm (quote :: (inner ++ [quote])) [] := by
  refine ⟨by simp, fun rest => stopsTrivia_quote hquote _, fun {p rest} hahead _ => ?_⟩
  have hstarts : startsQuote p.ahead = true := by
    rw [hahead]
    exact startsQuote_iff.2 hquote
  refine ⟨_, ?_, p.move (quote :: (inner ++ [quote])) (':' :: rest), rest, ?_,
    spaces_eq_iff.2 ⟨rfl, nofun, by simp [isSpace]⟩, rfl⟩
  · rw [hahead]
    exact unsupported_quote hquote false _
  · rw [key, if_pos hstarts]
    exact quotedText_enclosed hquote h hahead (by simp)

theorem scalarForm_enclosed : ScalarForm (quote :: (inner ++ [quote])) := by
  obtain ⟨hspace, hbreak, hsign⟩ := stopsTrivia_quote hquote (inner ++ [quote])
  refine ⟨by simp, fun rest => by simp [valueIsBelow, hbreak, hsign], fun rest => by simpa using hspace,
    fun {p rest} hahead hends => ?_⟩
  have htext := quotedText_enclosed hquote h hahead (head_of_endsLine hends)
  refine ⟨_, scalarText_eq_ok.2 ⟨?_, .inl ⟨?_, htext, hends⟩⟩⟩
  · rw [hahead]
    exact unsupported_quote hquote true _
  · rw [hahead]
    exact startsQuote_iff.2 hquote

end

theorem QuotedAs.enclosed {s q : String} (hq : QuotedAs s q) (hline : ∀ c ∈ s.toList, isBreak c = false) :
    (∃ quote inner, (quote = '"' ∨ quote = '\'') ∧ q.toList = quote :: (inner ++ [quote]) ∧
      Enclosed quote inner) ∧ keyParts q.toList = [s.toList] := by
  cases hq with
  | single =>
      rw [singleQuote, String.toList_ofList]
      refine ⟨⟨_, _, .inr rfl, rfl, enclosed_doubleQuotes hline⟩, ?_⟩
      rw [keyParts_single, undouble_doubleQuotes]
  | double =>
      rw [KeyPath.quote, String.toList_ofList]
      refine ⟨⟨_, _, .inl rfl, rfl, enclosed_escapeQuotes hline⟩, ?_⟩
      rw [keyParts_double, unescape_escapeQuotes]

/-! ### Documents of one entry -/

/-- The document that holds one entry, with a scalar behind a space. -/
def oneEntry (key value : List Char) : Node :=
  documentNode [] [.node (mappingNode [.node (entryNode [] key [] (scalarNode [' '] value))])] []

theorem parse_oneEntry {key value : List Char} (hkey : KeyForm key []) (hvalue : ScalarForm value) :
    parseDocument (String.ofList (key ++ ':' :: ' ' :: value)) = .ok (oneEntry key value) := by
  have hlead : LeadAt .start 0 [] :=
    ⟨rfl, rfl, rfl, fun hedge => absurd rfl hedge, fun hedge => by cases hedge⟩
  have hscalar : ScalarLaid key (scalarNode [' '] value) .word :=
    .inLine (by simp [isSpace]) (fun _ => by simp) hvalue
  have hlaid : DocumentLaid (oneEntry key value) :=
    .intro .none (.some (by simp) (.scalar hlead hkey hscalar .nil)) ⟨rfl, fun _ => by simp⟩
  have hprint : (oneEntry key value).print = String.ofList (key ++ ':' :: ' ' :: value) := by
    apply String.toList_injective
    rw [oneEntry, print_documentNode, printList_cons, Element.print, print_mappingNode,
      String.toList_append, toList_printList_entry, print_scalarNode]
    simp [Node.printList]
  rw [← hprint]
  exact parseDocument_of_laid hlaid

/-- The only entry of the document has this key and this scalar, as they are written. -/
def HoldsEntry (document : Node) (key value : String) : Prop :=
  ∃ mapping entry, documentMapping? document = some mapping ∧ mapping.childNodes = [entry] ∧
    keyText entry = some key ∧ (entryValue? entry).bind scalarText? = some value

theorem holdsEntry_oneEntry (key value : String) :
    HoldsEntry (oneEntry key.toList value.toList) key value := by
  refine ⟨_, _, rfl, rfl, ?_, ?_⟩
  · rw [keyText_entryNode, String.ofList_toList]
  · show some (String.ofList value.toList) = some value
    rw [String.ofList_toList]

/-- A text of one line is read back from quotes of either kind, in front of a colon and behind one, and
the guard of a deletion that asks for the text lets it pass. -/
theorem quoted_text_read {s q : String} (hline : ∀ c ∈ s.toList, isBreak c = false)
    (hq : QuotedAs s q) (key : PlainKey) {value : PlainValue} (hsome : value.text ≠ "")
    (hdash : value.text ≠ "-") :
    (∃ document, parseDocument (q ++ ": " ++ value.text) = .ok document ∧
      HoldsEntry document q value.text) ∧
    (∃ document, parseDocument (key.text ++ ": " ++ q) = .ok document ∧
      HoldsEntry document key.text q) ∧
    unquote q = s ∧ keySegments q = [s] ∧ valueMatches (.text s) q = true := by
  obtain ⟨⟨quote, inner, hquote, htext, henclosed⟩, hparts⟩ := hq.enclosed hline
  have hsegments : keySegments q = [s] := by
    rw [keyParts_toList] at hparts
    exact List.map_injective_iff.2 (fun _ _ => String.toList_injective) hparts
  have hunquote : unquote q = s := by
    have hquoted : isQuoted q = true := by
      rw [← String.ofList_toList (s := q), htext]
      exact isQuoted_quotes hquote inner
    rw [keySegments, if_pos hquoted] at hsegments
    exact List.singleton_inj.1 hsegments
  have hkey := keyForm_enclosed hquote henclosed
  have hscalar := scalarForm_enclosed hquote henclosed
  rw [← htext] at hkey hscalar
  have hwritten : ∀ a b : String, a ++ ": " ++ b = String.ofList (a.toList ++ ':' :: ' ' :: b.toList) :=
    fun a b => String.toList_injective (by simp)
  refine ⟨⟨oneEntry q.toList value.text.toList, ?_, holdsEntry_oneEntry _ _⟩,
    ⟨oneEntry key.text.toList q.toList, ?_, holdsEntry_oneEntry _ _⟩, hunquote, hsegments, ?_⟩
  · rw [hwritten]
    exact parse_oneEntry hkey (value.form hsome hdash)
  · rw [hwritten]
    exact parse_oneEntry key.form hscalar
  · rw [valueMatches, hunquote]
    exact beq_self_eq_true s

/-- A text with both quotes, a backslash in front of one, and a character of two bytes. -/
theorem quoted_text_read_mixed :
    (∀ c ∈ "it's \\\"é".toList, isBreak c = false) ∧ QuotedAs "it's \\\"é" "'it''s \\\"é'" ∧
    (∃ document, parseDocument "'it''s \\\"é': v" = .ok document ∧
      HoldsEntry document "'it''s \\\"é'" "v") ∧
    (∃ document, parseDocument "k: 'it''s \\\"é'" = .ok document ∧
      HoldsEntry document "k" "'it''s \\\"é'") ∧
    unquote "'it''s \\\"é'" = "it's \\\"é" ∧ keySegments "'it''s \\\"é'" = ["it's \\\"é"] ∧
    valueMatches (.text "it's \\\"é") "'it''s \\\"é'" = true := by
  have hchars : ("it's \\\"é".toList.all fun c => !isBreak c) = true := by decide
  have hline : ∀ c ∈ "it's \\\"é".toList, isBreak c = false := fun c hc => by
    simpa using List.all_eq_true.1 hchars c hc
  have hq : QuotedAs "it's \\\"é" "'it''s \\\"é'" := by
    have htext : "'it''s \\\"é'" = singleQuote "it's \\\"é" := by decide
    rw [htext]
    exact .single
  refine ⟨hline, hq, ?_⟩
  obtain ⟨key, hkey⟩ : ∃ key : PlainKey, key.text = "k" :=
    ⟨.ofSegments "k" [] (by decide) (by decide), by decide⟩
  obtain ⟨value, hvalue⟩ : ∃ value : PlainValue, value.text = "v" :=
    ⟨.ofText "v" (by decide), rfl⟩
  have hplain : value.text ≠ "" ∧ value.text ≠ "-" := by simp [hvalue]
  have hread := quoted_text_read hline hq key hplain.1 hplain.2
  rw [hkey, hvalue] at hread
  exact hread

end Codemod.Yaml
