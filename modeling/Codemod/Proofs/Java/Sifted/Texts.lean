import Codemod.Proofs.Recipes.KeptComments
import Codemod.Proofs.Java.Sifted.Units

/-!
The text that the recipe for needless semicolons leaves. Its tokens are those of the source that are not
needless, and signs of a right shift stand as close to each other as they did, so the text parses.
-/

namespace Codemod.Recipes.Semicolons.Sifted

open Codemod.Tree Codemod.Java Codemod.Java.Parser

/-! ### Signs of a right shift -/

/-- The first of the tokens is one that a right shift can go on with. -/
def joins (ts : List Token) : Bool :=
  ts.head?.any fun t => isOneOf [">", ">="] t && t.lead.isEmpty

/-- For each sign of a right shift, whether the shift can go on behind it. -/
def shifts : List Token → List Bool
  | [] => []
  | t :: ts => if isSign t ">" then joins ts :: shifts ts else shifts ts

theorem adjacent_eq (ls : List Lexed) : adjacent ls = joins (ls.map Lexed.token) := by
  cases ls <;> rfl

theorem shifts_cons (t : Token) (ts : List Token) :
    shifts (t :: ts) = if isSign t ">" then joins ts :: shifts ts else shifts ts :=
  rfl

theorem shifts_other {t : Token} (h : isSign t ">" = false) (ts : List Token) :
    shifts (t :: ts) = shifts ts := by
  rw [shifts_cons, h]
  rfl

theorem shifts_append_other {drops : List Token} (h : ∀ d ∈ drops, isSign d ">" = false)
    (ts : List Token) : shifts (drops ++ ts) = shifts ts := by
  induction drops with
  | nil => rfl
  | cons d drops ih =>
      rw [List.cons_append, shifts_other (h d List.mem_cons_self), ih fun e he =>
        h e (List.mem_cons_of_mem d he)]

theorem joins_of_ne {t : Token} (h : t.text ≠ ">" ∧ t.text ≠ ">=") (ts : List Token) :
    joins (t :: ts) = false := by
  simp [joins, isOneOf, isSign, h.1, h.2]

theorem isSign_of_ne {t : Token} {text : String} (h : t.text ≠ text) : isSign t text = false := by
  simp [isSign, h]

theorem shifts_front {ts ts' : List Token} (front : List Token) {before : Token}
    (h : shifts (before :: ts) = shifts (before :: ts')) :
    shifts (front ++ before :: ts) = shifts (front ++ before :: ts') := by
  induction front with
  | nil => exact h
  | cons x front ih =>
      have hjoins : joins (front ++ before :: ts) = joins (front ++ before :: ts') := by
        cases front <;> rfl
      rw [List.cons_append, List.cons_append, shifts_cons x, shifts_cons x, ih, hjoins]

theorem joins_closes {t : Token} (h : closes t = true) (ts : List Token) : joins (t :: ts) = false := by
  have htext : t.text = "\x7d" ∨ t.text = ")" := by simpa [closes] using h
  rcases htext with htext | htext <;> exact joins_of_ne (by rw [htext]; decide) ts

theorem shifts_shed {ts ts' : List Token} (h : Shed ts ts') : shifts ts' = shifts ts := by
  obtain ⟨front, lead, hbefore, hdrops, -, -⟩ := h
  rename_i before t drops behind
  refine shifts_front front ?_
  have hgone : ∀ d ∈ drops, isSign d ">" = false := fun d hd =>
    isSign_of_ne (by rw [hdrops d hd]; decide)
  have hbehind : shifts ({ t with lead } :: behind) = shifts (drops ++ t :: behind) := by
    rw [shifts_append_other hgone]
    rfl
  rcases hbefore with htight | ⟨-, hcloses⟩
  · -- What is tight is no sign of a shift itself.
    have hother : isSign before ">" = false := isSign_of_ne fun htext => by
      rcases text_of_isTight htight with h | h | h <;> exact absurd (h.symm.trans htext) (by decide)
    rw [shifts_other hother, shifts_other hother, hbehind]
  · have hjoins : joins (drops ++ t :: behind) = false := by
      cases drops with
      | nil => exact joins_closes hcloses behind
      | cons d drops => exact joins_of_ne (by rw [hdrops d List.mem_cons_self]; decide) _
    rw [shifts_cons before, shifts_cons before, hbehind, hjoins,
      joins_closes (t := { t with lead }) hcloses]

theorem shifts_sheds {ts ts' : List Token} (h : Sheds ts ts') : shifts ts' = shifts ts := by
  induction h with
  | refl => rfl
  | tail _ hstep ih => rw [shifts_shed hstep, ih]

theorem shifts_concat {last : Token} (hlast : last.kind = .eof) (ts : List Token) :
    shifts (ts ++ [last]) = shifts ts := by
  induction ts with
  | nil => simp [shifts, isSign, hlast]
  | cons t ts ih =>
      have hjoins : joins (ts ++ [last]) = joins ts := by
        cases ts with
        | nil => simp [joins, isOneOf, isSign, hlast]
        | cons t ts => rfl
      rw [List.cons_append, shifts_cons t, shifts_cons t, ih, hjoins]

/-! ### What is left -/

theorem left_of_words {loose : Bool} {F : Sifting} {ls : List Lexed} (hF : Fits loose F)
    (hwords : ls.map (fun l => l.token.word) = F.words)
    (hshifts : shifts (ls.map Lexed.token) = shifts (F.map fun x => x.1.token)) : Left F ls := by
  induction F generalizing ls loose with
  | nil =>
      obtain rfl := List.map_eq_nil_iff.1 hwords
      exact .nil
  | cons x F ih =>
      obtain ⟨l, _ | _⟩ := x
      · obtain ⟨l', ls, rfl, hword, hwords⟩ := List.map_eq_cons_iff.1 hwords
        have hsign : isSign l'.token ">" = isSign l.token ">" := (leadless_isSign ">").eq hword
        rw [List.map_cons, List.map_cons, shifts_cons, shifts_cons, hsign] at hshifts
        cases hshift : isSign l.token ">" with
        | false =>
            rw [hshift] at hshifts
            exact .kept hword (fun h => absurd (hshift.symm.trans h) nofun) (ih hF hwords hshifts)
        | true =>
            rw [hshift] at hshifts
            obtain ⟨hjoins, hshifts⟩ := List.cons.inj hshifts
            refine .kept hword (fun _ => ?_) (ih hF hwords hshifts)
            rw [adjacent_eq, adjacent_eq, List.map_map]
            exact hjoins
      · obtain ⟨hsign, -, hF⟩ := hF
        refine .gone (ih hF hwords ?_)
        rw [hshifts, List.map_cons, shifts_other (isSign_of_ne (by rw [text_of_isSign hsign]; decide))]

/-! ### Texts -/

/-- Where the trivia of each semicolon that goes is taken over whole, what is left of the tokens of a
unit are the tokens of the text that the recipe leaves. -/
theorem sifts_trimmed {source : String} {unit : Node} (h : parseUnit source = .ok unit)
    (hspares : unit.Everywhere fun n => spares n = true) {tokens tokens' : Tokens}
    (htokens : tokenize source = .ok tokens) (htokens' : tokenize (trimmed unit).print = .ok tokens')
    {F : Sifting} (hall : tokens.ahead = F.map Prod.fst) (hF : Fits false F)
    (hwords : kept (judge false unit) = F.words ++ [tokens.last.token.word]) :
    Sifts F tokens tokens' := by
  obtain ⟨_, _, tokens₁, htokens₁, hlexemes⟩ := unit_of_parseUnit h
  obtain rfl := Except.ok.inj (htokens.symm.trans htokens₁)
  obtain ⟨tokens₂, htokens₂, hlexemes'⟩ := exists_tokens_trimmed h hspares
  obtain rfl := Except.ok.inj (htokens'.symm.trans htokens₂)
  obtain ⟨-, heof⟩ := genuine_tokenize htokens
  obtain ⟨-, heof'⟩ := genuine_tokenize htokens'
  have hleft : (tokens'.toList.map fun l => l.token.word) = F.words ++ [tokens.last.token.word] := by
    rw [← hwords, ← words_of_parseUnit h, Node.words, ← hlexemes', List.map_map]
    rfl
  rw [Tokens.toList, List.map_append] at hleft
  obtain ⟨hahead, hlast⟩ := List.append_inj' hleft rfl
  refine ⟨hall, left_of_words hF hahead ?_, (List.cons.inj hlast).1, heof⟩
  have hshifts := shifts_sheds (keeps_trimmed h hspares).sheds
  rw [hlexemes, ← hlexemes', Tokens.toList, Tokens.toList, List.map_append, List.map_append,
    List.map_singleton, List.map_singleton, shifts_concat heof, shifts_concat heof', hall,
    List.map_map] at hshifts
  exact hshifts

theorem parses_trimmed {source : String} {unit : Node} (h : parseUnit source = .ok unit)
    (hspares : unit.Everywhere fun n => spares n = true) :
    ∃ unit', parseUnit (trimmed unit).print = .ok unit' := by
  obtain ⟨tokens, htokens, hunit⟩ := bind_eq_ok.1 h
  obtain ⟨hgenuine, -⟩ := genuine_tokenize htokens
  obtain ⟨tokens', htokens', -⟩ := exists_tokens_trimmed h hspares
  obtain ⟨F, hall, hwords, hF, hparses⟩ := parses_left hgenuine hunit
  obtain ⟨unit', hunit'⟩ := hparses (sifts_trimmed h hspares htokens htokens' hall hF hwords)
  exact ⟨unit', bind_eq_ok.2 ⟨tokens', htokens', hunit'⟩⟩

end Codemod.Recipes.Semicolons.Sifted

namespace Codemod.Recipes.Semicolons

open Codemod.Tree Codemod.Java

/-! ### Words -/

/-- The recipe takes exactly the needless semicolons out of a parsed unit: its words are those of
the text without them. Where the trivia of each semicolon that goes is taken over whole, the text that
the recipe leaves has these words as its tokens and parses to a unit of these words. -/
theorem words_trimmed {source : String} {unit : Node} (h : parseUnit source = .ok unit) :
    (trimmed unit).words = kept (judge false unit) ∧
      (∀ w, (w, true) ∈ judge false unit → w = (.punct, ";")) ∧
      (∃ tokens, tokenize source = .ok tokens ∧
        (judge false unit).map Prod.fst = tokens.toList.map fun t => t.token.word) ∧
      ((unit.Everywhere fun n => spares n = true) → ∃ tokens unit',
        tokenize (trimmed unit).print = .ok tokens ∧
          (tokens.toList.map fun t => t.token.word) = kept (judge false unit) ∧
            parseUnit (trimmed unit).print = .ok unit' ∧ unit'.words = kept (judge false unit)) := by
  have hwords := words_of_parseUnit h
  refine ⟨hwords, fun w hw => needless_semicolon (formed_of_parseUnit h) hw, ?_, fun hspares => ?_⟩
  · obtain ⟨_, _, tokens, htokens, hlexemes⟩ := unit_of_parseUnit h
    refine ⟨tokens, htokens, ?_⟩
    rw [words_judge, Node.words, hlexemes, List.map_map]
    rfl
  · obtain ⟨unit', hunit'⟩ := Sifted.parses_trimmed h hspares
    obtain ⟨tokens, htokens, hlexemes⟩ := exists_tokens_trimmed h hspares
    obtain ⟨_, _, tokens', htokens', hlexemes'⟩ := unit_of_parseUnit hunit'
    obtain rfl := Except.ok.inj (htokens.symm.trans htokens')
    have hkept : (tokens.toList.map fun t => t.token.word) = kept (judge false unit) := by
      rw [← hwords, Node.words, ← hlexemes, List.map_map]
      rfl
    refine ⟨tokens, unit', htokens, hkept, hunit', ?_⟩
    rw [Node.words, hlexemes', List.map_map]
    exact hkept

/-- The semicolons behind the constants, behind the last resource and by itself go; the one that is
the body of the loop stays. -/
theorem words_trimmed_enum :
    let source := "enum E \x7b A, B, ; void f() \x7b try (r; s;) \x7b ; while (b) ; \x7d \x7d \x7d"
      ++ " enum F \x7b C; ; \x7d"
    ∃ unit, parseUnit source = .ok unit ∧ (trimmed unit).words.map Prod.snd =
      [ "enum", "E", "\x7b", "A", ",", "B", ",", ";", "void", "f", "(", ")", "\x7b", "try", "(", "r",
        ";", "s", ")", "\x7b", "while", "(", "b", ")", ";", "\x7d", "\x7d", "\x7d", "enum", "F",
        "\x7b", "C", "\x7d", "" ] := by
  intro source
  have hkept : (parseUnit source).toOption.map (fun unit => (kept (judge false unit)).map Prod.snd) =
      some [ "enum", "E", "\x7b", "A", ",", "B", ",", ";", "void", "f", "(", ")", "\x7b", "try", "(",
        "r", ";", "s", ")", "\x7b", "while", "(", "b", ")", ";", "\x7d", "\x7d", "\x7d", "enum", "F",
        "\x7b", "C", "\x7d", "" ] := by
    decide +kernel
  cases hunit : parseUnit source with
  | error e =>
      rw [hunit] at hkept
      cases hkept
  | ok unit =>
      rw [hunit] at hkept
      refine ⟨unit, rfl, ?_⟩
      rw [(words_trimmed hunit).1]
      exact Option.some.inj hkept

/-- The words stay, but a comment that spans lines is cut where it moves on. -/
example :
    (parseUnit "class A \x7b\n  /* one\n     two */ ;\n  int i;\n\x7d\n").toOption.map
        (fun unit => (trimmed unit).print) =
      some "class A \x7b\n  /* one\n  int i;\n\x7d\n" := by
  decide +kernel

end Codemod.Recipes.Semicolons
