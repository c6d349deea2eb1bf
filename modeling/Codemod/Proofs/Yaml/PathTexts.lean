import Codemod.Proofs.Outcome
import Codemod.Proofs.Text.Parts
import Codemod.Yaml.KeyPath
import Mathlib.Data.List.Forall2

/-!
How key paths are written. A segment is written as it is, or between quotes, and the texts of the
segments of a path have dots between them. The main statement says that any list of segments, each
written in double quotes or, where that is possible, without, is read as the path of these segments.
-/

namespace Codemod.Yaml

open Codemod.Text

/-! ### Ends of segments -/

namespace KeyPath

section
variable (first : Bool) (current rest : List Char)

theorem segments_end {quoted : Bool} (h : current ≠ [] ∨ quoted = true) :
    segments first none quoted current [] = .ok [current] := by
  rw [segments.eq_def]
  simp [h]

theorem segments_dot {quoted : Bool} (h : current ≠ [] ∨ quoted = true) :
    segments first none quoted current ('.' :: rest) = (do
      let others ← segments false none false [] rest
      .ok (current :: others)) := by
  have hsome : (current.isEmpty && !quoted) = false := by
    rcases h with h | h <;> simp [h]
  rw [segments.eq_def]
  simp [hsome]

end

end KeyPath

/-! ### Between double quotes -/

/-- What a text between double quotes stands for, where `escaped` says what a character behind a
backslash stands for. -/
def decode (escaped : Char → Char) : List Char → List Char
  | '\\' :: c :: rest => escaped c :: decode escaped rest
  | c :: rest => c :: decode escaped rest
  | [] => []

/-- The text may stand between double quotes: a double quote in it is behind a backslash, and a
character is behind each backslash that is not itself behind one. -/
inductive DoubleQuoted : List Char → Prop where
  | nil : DoubleQuoted []
  | plain {c : Char} {cs : List Char} (hquote : c ≠ '"') (hescape : c ≠ '\\') (h : DoubleQuoted cs) :
      DoubleQuoted (c :: cs)
  | escape (c : Char) {cs : List Char} (h : DoubleQuoted cs) : DoubleQuoted ('\\' :: c :: cs)

theorem decode_plain {c : Char} (hescape : c ≠ '\\') (escaped : Char → Char) (cs : List Char) :
    decode escaped (c :: cs) = c :: decode escaped cs := by
  rw [decode.eq_2]
  rintro d rest rfl
  contradiction

/-! ### Steps of the reader -/

namespace KeyPath

/-- The character stands for itself in a segment without quotes. -/
def IsBare (c : Char) : Prop :=
  c ≠ '.' ∧ c ≠ '"' ∧ c ≠ '\'' ∧ isBlank c = false

instance (c : Char) : Decidable (IsBare c) :=
  inferInstanceAs (Decidable (_ ∧ _))

section
variable (first : Bool) (current rest : List Char)

theorem segments_bare {c : Char} (h : IsBare c) :
    segments first none false current (c :: rest) = segments first none false (current ++ [c]) rest := by
  obtain ⟨hdot, hdouble, hsingle, hblank⟩ := h
  rw [segments.eq_def]
  simp [hdot, hdouble, hsingle, hblank]

theorem segments_open {c : Char} (h : c = '"' ∨ c = '\'') :
    segments first none false [] (c :: rest) = segments first (some c) true [] rest := by
  rw [segments.eq_def]
  rcases h with rfl | rfl <;> simp

theorem segments_reopen {c : Char} (h : c = '"' ∨ c = '\'') :
    segments first none true current (c :: rest) = .error .quoteInside := by
  rw [segments.eq_def]
  rcases h with rfl | rfl <;> simp

section
variable (quoted : Bool)

theorem segments_close (q : Char) :
    segments first (some q) quoted current (q :: rest) = segments first none quoted current rest := by
  rw [segments.eq_def]
  simp

theorem segments_inside {q c : Char} (hquote : c ≠ q) (hescape : q = '"' → c ≠ '\\') :
    segments first (some q) quoted current (c :: rest) =
      segments first (some q) quoted (current ++ [c]) rest := by
  have hplain : (decide (q = '"') && decide (c = '\\')) = false := by
    simpa using hescape
  rw [segments.eq_def]
  simp only [if_neg hquote, hplain]
  rfl

theorem segments_escape (c : Char) :
    segments first (some '"') quoted current ('\\' :: c :: rest) =
      segments first (some '"') quoted (current ++ [escaped c]) rest := by
  rw [segments.eq_def]
  simp

/-! ### Runs of the reader -/

variable {inner : List Char}

theorem segments_singleQuoted (h : '\'' ∉ inner) :
    segments first (some '\'') quoted current (inner ++ '\'' :: rest) =
      segments first none quoted (current ++ inner) rest := by
  induction inner generalizing current with
  | nil => rw [List.nil_append, segments_close, List.append_nil]
  | cons c inner ih =>
      rw [List.mem_cons, not_or] at h
      rw [List.cons_append, segments_inside _ _ _ _ (Ne.symm h.1) (by simp), ih _ h.2,
        List.append_assoc]
      rfl

theorem segments_doubleQuoted (h : DoubleQuoted inner) :
    segments first (some '"') quoted current (inner ++ '"' :: rest) =
      segments first none quoted (current ++ decode escaped inner) rest := by
  induction h generalizing current with
  | nil => rw [List.nil_append, segments_close, decode, List.append_nil]
  | plain hquote hescape _ ih =>
      rw [List.cons_append, segments_inside _ _ _ _ hquote fun _ => hescape, ih, decode_plain hescape,
        List.append_assoc]
      rfl
  | escape c _ ih =>
      rw [List.cons_append, List.cons_append, segments_escape, ih, decode, List.append_assoc]
      rfl

end

theorem segments_bares {cs : List Char} (h : ∀ c ∈ cs, IsBare c) :
    segments first none false current (cs ++ rest) =
      segments first none false (current ++ cs) rest := by
  induction cs generalizing current with
  | nil => rw [List.nil_append, List.append_nil]
  | cons c cs ih =>
      obtain ⟨hc, hcs⟩ := List.forall_mem_cons.1 h
      rw [List.cons_append, segments_bare _ _ _ hc, ih _ hcs, List.append_assoc]
      rfl

end

end KeyPath

/-! ### Texts of paths -/

/-- The text of a segment, and the segment that it is for. -/
inductive SegmentText : List Char → List Char → Prop where
  | bare {segment : List Char} (hsome : segment ≠ []) (h : ∀ c ∈ segment, KeyPath.IsBare c) :
      SegmentText segment segment
  | single {segment : List Char} (h : '\'' ∉ segment) :
      SegmentText ('\'' :: (segment ++ ['\''])) segment
  | double {inner : List Char} (h : DoubleQuoted inner) :
      SegmentText ('"' :: (inner ++ ['"'])) (decode KeyPath.escaped inner)

/-- The text of a path with these segments: texts of the segments with dots between them. -/
def PathText (text : List Char) (segments : List (List Char)) : Prop :=
  ∃ texts, texts ≠ [] ∧ List.Forall₂ SegmentText texts segments ∧ text = join '.' texts

theorem pathText_singleton {text segment : List Char} (h : SegmentText text segment) :
    PathText text [segment] :=
  ⟨[text], by simp, .cons h .nil, rfl⟩

namespace KeyPath

theorem segments_text {text segment : List Char} (h : SegmentText text segment) (first : Bool) (rest : List Char) :
    ∃ quoted, (segment ≠ [] ∨ quoted = true) ∧
      segments first none false [] (text ++ rest) = segments first none quoted segment rest := by
  cases h with
  | bare hsome h => exact ⟨false, .inl hsome, segments_bares first [] rest h⟩
  | single h =>
      refine ⟨true, .inr rfl, ?_⟩
      rw [List.cons_append, segments_open _ _ (.inr rfl), List.append_assoc]
      exact segments_singleQuoted first [] rest true h
  | double h =>
      refine ⟨true, .inr rfl, ?_⟩
      rw [List.cons_append, segments_open _ _ (.inl rfl), List.append_assoc]
      exact segments_doubleQuoted first [] rest true h

theorem segments_texts {texts values : List (List Char)} (hsome : texts ≠ [])
    (h : List.Forall₂ SegmentText texts values) (first : Bool) :
    segments first none false [] (join '.' texts) = .ok values := by
  induction h generalizing first with
  | nil => contradiction
  | @cons text segment texts values htext htexts ih =>
      cases htexts with
      | nil =>
          obtain ⟨quoted, hheld, hread⟩ := segments_text htext first []
          rw [join, ← List.append_nil text, hread, segments_end _ _ hheld]
      | @cons next _ texts _ hnext hrest =>
          obtain ⟨quoted, hheld, hread⟩ := segments_text htext first ('.' :: join '.' (next :: texts))
          rw [join.eq_3 _ _ _ (List.cons_ne_nil _ _), hread, segments_dot _ _ _ hheld,
            ih (List.cons_ne_nil _ _) false]
          rfl

section
variable {raw : List Char} {values : List (List Char)} (h : PathText raw values)
include h

theorem segments_of_text (first : Bool) : segments first none false [] raw = .ok values := by
  obtain ⟨texts, hsome, htexts, rfl⟩ := h
  exact segments_texts hsome htexts first

theorem segments_front (first : Bool) (rest : List Char) :
    segments first none false [] (raw ++ '.' :: rest) =
      (segments false none false [] rest).map (values ++ ·) := by
  obtain ⟨texts, hsome, htexts, rfl⟩ := h
  induction htexts generalizing first with
  | nil => contradiction
  | @cons text segment texts values htext htexts ih =>
      cases htexts with
      | nil =>
          obtain ⟨quoted, hheld, hread⟩ := segments_text htext first ('.' :: rest)
          rw [join, hread, segments_dot _ _ _ hheld]
          rfl
      | @cons next _ texts _ hnext hrest =>
          obtain ⟨quoted, hheld, hread⟩ :=
            segments_text htext first ('.' :: (join '.' (next :: texts) ++ '.' :: rest))
          rw [join.eq_3 _ _ _ (List.cons_ne_nil _ _), List.append_assoc, List.cons_append, hread,
            segments_dot _ _ _ hheld, ih false (List.cons_ne_nil _ _)]
          cases segments false none false [] rest <;> rfl

end

theorem exists_of_singleQuoted {first quoted : Bool} {current cs : List Char}
    {values : List (List Char)} (h : segments first (some '\'') quoted current cs = .ok values) :
    ∃ inner rest, cs = inner ++ '\'' :: rest ∧ '\'' ∉ inner ∧
      segments first none quoted (current ++ inner) rest = .ok values := by
  induction cs generalizing current with
  | nil => cases h
  | cons c cs ih =>
      by_cases hc : c = '\''
      · subst hc
        rw [segments_close] at h
        exact ⟨[], cs, rfl, List.not_mem_nil, by rwa [List.append_nil]⟩
      · rw [segments_inside _ _ _ _ hc (by simp)] at h
        obtain ⟨inner, rest, rfl, hinner, hrest⟩ := ih h
        refine ⟨c :: inner, rest, rfl, by simpa using ⟨Ne.symm hc, hinner⟩, ?_⟩
        rwa [List.append_assoc] at hrest

theorem exists_of_doubleQuoted {first quoted : Bool} {values : List (List Char)} :
    ∀ {cs current : List Char}, segments first (some '"') quoted current cs = .ok values →
      ∃ inner rest, cs = inner ++ '"' :: rest ∧ DoubleQuoted inner ∧
        segments first none quoted (current ++ decode escaped inner) rest = .ok values
  | [], _, h => by cases h
  | c :: cs, current, h => by
      by_cases hquote : c = '"'
      · subst hquote
        rw [segments_close] at h
        exact ⟨[], cs, rfl, .nil, by rwa [decode, List.append_nil]⟩
      by_cases hescape : c = '\\'
      · subst hescape
        cases cs with
        | nil =>
            rw [segments.eq_def] at h
            simp at h
        | cons d cs =>
            rw [segments_escape] at h
            obtain ⟨inner, rest, rfl, hinner, hrest⟩ := exists_of_doubleQuoted h
            exact ⟨'\\' :: d :: inner, rest, rfl, .escape d hinner, by
              rwa [List.append_assoc] at hrest⟩
      · rw [segments_inside _ _ _ _ hquote fun _ => hescape] at h
        obtain ⟨inner, rest, rfl, hinner, hrest⟩ := exists_of_doubleQuoted h
        refine ⟨c :: inner, rest, rfl, .plain hquote hescape hinner, ?_⟩
        rwa [decode_plain hescape, List.append_cons]

theorem exists_of_bare {first : Bool} {current cs : List Char} {values : List (List Char)}
    (h : segments first none false current cs = .ok values) :
    ∃ run rest, cs = run ++ rest ∧ (∀ c ∈ run, IsBare c) ∧ (∀ c, rest.head? = some c → ¬ IsBare c) ∧
      segments first none false (current ++ run) rest = .ok values := by
  induction cs generalizing current with
  | nil => exact ⟨[], [], rfl, nofun, nofun, by rwa [List.append_nil]⟩
  | cons c cs ih =>
      by_cases hc : IsBare c
      · rw [segments_bare _ _ _ hc] at h
        obtain ⟨run, rest, rfl, hrun, hstop, hrest⟩ := ih h
        refine ⟨c :: run, rest, rfl, List.forall_mem_cons.2 ⟨hc, hrun⟩, hstop, ?_⟩
        rwa [List.append_cons]
      · refine ⟨[], c :: cs, rfl, nofun, fun d hd => ?_, by rwa [List.append_nil]⟩
        cases hd
        exact hc

theorem exists_of_held {first quoted : Bool} {current rest : List Char} {values : List (List Char)}
    (hheld : current ≠ [] ∨ quoted = true)
    (hstop : quoted = false → ∀ c, rest.head? = some c → ¬ IsBare c)
    (h : segments first none quoted current rest = .ok values) :
    rest = [] ∧ values = [current] ∨
      ∃ rest' others, rest = '.' :: rest' ∧ segments false none false [] rest' = .ok others ∧
        values = current :: others := by
  cases rest with
  | nil =>
      rw [segments_end _ _ hheld] at h
      cases h
      exact .inl ⟨rfl, rfl⟩
  | cons c rest =>
      by_cases hdot : c = '.'
      · subst hdot
        rw [segments_dot _ _ _ hheld] at h
        obtain ⟨others, hothers, h⟩ := bind_eq_ok.1 h
        cases h
        exact .inr ⟨rest, others, rfl, hothers, rfl⟩
      · rw [segments.eq_def] at h
        simp only [if_neg hdot] at h
        split_ifs at h with hquote hheld' hblank hquoted
        · simp [hheld] at hheld'
        · refine absurd ?_ (hstop (by simpa using hquoted) c rfl)
          simpa [IsBare, hdot, hblank] using hquote

theorem exists_of_segments {first : Bool} {cs : List Char} {values : List (List Char)}
    (h : segments first none false [] cs = .ok values) :
    (first = true ∧ values = []) ∨
      ∃ text segment rest quoted, cs = text ++ rest ∧ SegmentText text segment ∧
        (segment ≠ [] ∨ quoted = true) ∧ (quoted = false → ∀ c, rest.head? = some c → ¬ IsBare c) ∧
          segments first none quoted segment rest = .ok values := by
  obtain ⟨run, rest, rfl, hrun, hstop, hrest⟩ := exists_of_bare h
  by_cases hsome : run = []
  · subst hsome
    rw [List.append_nil] at hrest
    cases rest with
    | nil =>
        rw [segments.eq_def] at hrest
        simp only [Option.isSome_none, List.isEmpty_nil] at hrest
        cases first with
        | false => cases hrest
        | true =>
            cases hrest
            exact .inl ⟨rfl, rfl⟩
    | cons c rest =>
        by_cases hsingle : c = '\''
        · subst hsingle
          rw [segments_open _ _ (.inr rfl)] at hrest
          obtain ⟨inner, rest, rfl, hinner, hrest⟩ := exists_of_singleQuoted hrest
          exact .inr ⟨_, _, rest, true, by simp, .single hinner, .inr rfl, nofun, hrest⟩
        by_cases hdouble : c = '"'
        · subst hdouble
          rw [segments_open _ _ (.inl rfl)] at hrest
          obtain ⟨inner, rest, rfl, hinner, hrest⟩ := exists_of_doubleQuoted hrest
          exact .inr ⟨_, _, rest, true, by simp, .double hinner, .inr rfl, nofun, hrest⟩
        · have hbare := hstop c rfl
          rw [segments.eq_def] at hrest
          by_cases hdot : c = '.'
          · simp [hdot] at hrest
          · have hblank : isBlank c = true := by
              simpa [IsBare, hdot, hdouble, hsingle] using hbare
            simp [hdot, hdouble, hsingle, hblank] at hrest
  · exact .inr ⟨run, run, rest, false, rfl, .bare hsome hrun, .inl hsome, fun _ => hstop, hrest⟩

theorem text_of_segments {first : Bool} {cs : List Char} {values : List (List Char)}
    (h : segments first none false [] cs = .ok values) :
    (first = true ∧ values = []) ∨ PathText cs values := by
  induction hlength : cs.length using Nat.strong_induction_on generalizing first cs values with
  | _ n ih =>
      rcases exists_of_segments h with
        hnil | ⟨text, segment, rest, quoted, rfl, htext, hheld, hstop, hrest⟩
      · exact .inl hnil
      refine .inr ?_
      rcases exists_of_held hheld hstop hrest with
        ⟨rfl, rfl⟩ | ⟨rest, others, rfl, hothers, rfl⟩
      · simpa using pathText_singleton htext
      · have hshorter : rest.length < n := by
          rw [← hlength]
          simp
          omega
        rcases ih rest.length hshorter hothers rfl with
          ⟨hfirst, -⟩ | ⟨texts, hsome, htexts, rfl⟩
        · cases hfirst
        · exact ⟨text :: texts, by simp, .cons htext htexts, (join.eq_3 _ _ _ hsome).symm⟩

theorem parse_eq_ok {input : String} {path : KeyPath} :
    parse input = .ok path ↔
      segments true none false [] input.toList = .ok (path.parts.map String.toList) := by
  rw [parse]
  constructor
  · intro h
    split at h
    · cases h
    · cases h
    · rename_i part parts hread
      cases h
      simpa using hread
  · intro hread
    obtain ⟨parts, hparts⟩ := path
    obtain ⟨part, parts, rfl⟩ := List.exists_cons_of_ne_nil hparts
    rw [hread]
    simp

theorem parse_eq_ok_iff {input : String} {path : KeyPath} :
    parse input = .ok path ↔ PathText input.toList (path.parts.map String.toList) := by
  rw [parse_eq_ok]
  constructor
  · intro h
    rcases text_of_segments h with ⟨-, hnil⟩ | htext
    · exact absurd (List.map_eq_nil_iff.1 hnil) path.parts_ne_nil
    · exact htext
  · rintro ⟨texts, hsome, htexts, htext⟩
    rw [htext]
    exact segments_texts hsome htexts true

theorem parse_of_text {input : String} {parts : List String}
    (h : PathText input.toList (parts.map String.toList)) :
    ∃ path, parse input = .ok path ∧ path.parts = parts := by
  have hparts : parts ≠ [] := by
    rintro rfl
    obtain ⟨texts, hsome, htexts, -⟩ := h
    exact hsome (List.forall₂_nil_right_iff.1 htexts)
  exact ⟨⟨parts, hparts⟩, parse_eq_ok_iff.2 h, rfl⟩

/-! ### Writing paths -/

/-- The characters with a backslash in front of each double quote and each backslash. -/
def escapeQuotes (cs : List Char) : List Char :=
  cs.flatMap fun c => if c = '"' ∨ c = '\\' then ['\\', c] else [c]

/-- The segment between double quotes. -/
def quote (segment : String) : String :=
  String.ofList ('"' :: (escapeQuotes segment.toList ++ ['"']))

/-- The texts that a segment is written as: it stands between double quotes, or for itself, if it is
not empty and none of its characters is a dot, a quote or a blank. -/
inductive Spelling : String → String → Prop where
  | quoted (segment : String) : Spelling (quote segment) segment
  | bare {segment : String} (hsome : segment ≠ "") (h : ∀ c ∈ segment.toList, IsBare c) :
      Spelling segment segment

theorem doubleQuoted_escapeQuotes (cs : List Char) :
    DoubleQuoted (escapeQuotes cs) ∧ decode escaped (escapeQuotes cs) = cs := by
  induction cs with
  | nil => exact ⟨.nil, rfl⟩
  | cons c cs ih =>
      obtain ⟨hquoted, hdecode⟩ := ih
      rw [escapeQuotes, List.flatMap_cons]
      split_ifs with hc
      · refine ⟨.escape c hquoted, ?_⟩
        have hescaped : escaped c = c := by rcases hc with rfl | rfl <;> rfl
        exact congrArg₂ List.cons hescaped hdecode
      · rw [not_or] at hc
        refine ⟨.plain hc.1 hc.2 hquoted, ?_⟩
        exact (decode_plain hc.2 _ _).trans (congrArg (List.cons c) hdecode)

theorem Spelling.text {text segment : String} (h : Spelling text segment) :
    SegmentText text.toList segment.toList := by
  cases h with
  | bare hsome h => exact .bare (by simpa using hsome) h
  | quoted =>
      obtain ⟨hquoted, hdecode⟩ := doubleQuoted_escapeQuotes segment.toList
      have htext := SegmentText.double hquoted
      rw [hdecode] at htext
      rwa [quote, String.toList_ofList]

/-- Segments that are written one by one, with dots between them, are read as the path of these
segments, whatever characters are in them. -/
theorem parse_spelling {texts segments : List String} (hsome : segments ≠ [])
    (h : List.Forall₂ Spelling texts segments) :
    ∃ path, parse (String.intercalate "." texts) = .ok path ∧ path.parts = segments := by
  have htexts : List.Forall₂ SegmentText (texts.map String.toList) (segments.map String.toList) := by
    rw [List.forall₂_map_left_iff, List.forall₂_map_right_iff]
    exact h.imp fun _ _ => Spelling.text
  refine parse_of_text ⟨_, ?_, htexts, ?_⟩
  · rintro hnil
    rw [List.map_eq_nil_iff.1 hnil] at h
    exact hsome (List.forall₂_nil_left_iff.1 h)
  · rw [String.toList_intercalate]
    exact intercalate_eq_join '.' _

/-- A path of five segments: a word, a text of quotes, backslashes and dots, an empty one, a blank, and
a word behind a line feed. -/
theorem parse_spelling_mixed :
    ∃ path, parse "spring.\"a.\\\"b\\\\\".\"\".\" \".\"\nx\"" = .ok path ∧
      path.parts = ["spring", "a.\"b\\", "", " ", "\nx"] := by
  have hbare : ("spring".toList.all fun c => decide (IsBare c)) = true := by decide
  have htexts : List.Forall₂ Spelling
      ["spring", quote "a.\"b\\", quote "", quote " ", quote "\nx"]
      ["spring", "a.\"b\\", "", " ", "\nx"] :=
    .cons (.bare (by decide) fun c hc => of_decide_eq_true (List.all_eq_true.1 hbare c hc))
      (.cons (.quoted _) (.cons (.quoted _) (.cons (.quoted _) (.cons (.quoted _) .nil))))
  have htext : "spring.\"a.\\\"b\\\\\".\"\".\" \".\"\nx\"" = String.intercalate "."
      ["spring", quote "a.\"b\\", quote "", quote " ", quote "\nx"] := by
    decide
  rw [htext]
  exact parse_spelling (by simp) htexts

end KeyPath

end Codemod.Yaml
