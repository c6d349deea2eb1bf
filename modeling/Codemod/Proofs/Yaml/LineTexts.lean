import Codemod.Proofs.Yaml.Pieces

/-!
What the text of a key or a scalar may be: one line that begins with no quote, or characters between
quotes. What the other modules say of such texts follows from these two forms.
-/

namespace Codemod.Yaml

/-- A text is in one line and begins with no quote, or it stands between quotes. -/
inductive LineText : List Char → Prop where
  | plain {raw : List Char} (hline : ∀ c ∈ raw, isBreak c = false) (hquote : startsQuote raw = false) :
      LineText raw
  | quoted {quote : Char} {inner : List Char} (hquote : quote = '"' ∨ quote = '\'')
      (h : Enclosed quote inner) : LineText (quote :: (inner ++ [quote]))

theorem isBreak_of_quote {quote : Char} (h : quote = '"' ∨ quote = '\'') : isBreak quote = false := by
  rcases h with rfl | rfl <;> rfl

/-- A text that begins with no quote begins with another character. -/
theorem exists_of_not_startsQuote {raw : List Char} (hne : raw ≠ []) (hquote : startsQuote raw = false) :
    ∃ c rest, raw = c :: rest ∧ c ≠ '"' ∧ c ≠ '\'' := by
  obtain ⟨c, rest, rfl⟩ := List.exists_cons_of_ne_nil hne
  rw [← Bool.not_eq_true, startsQuote_iff, not_or] at hquote
  exact ⟨c, rest, rfl, hquote⟩

theorem startsQuote_of_starts {raw cs : List Char} (h : raw <+: cs) (hplain : startsQuote cs = false) :
    startsQuote raw = false := by
  obtain ⟨rest, rfl⟩ := h
  cases raw with
  | nil => rfl
  | cons c raw => exact hplain

/-! ### Texts that are read -/

theorem unbroken_keyRun (afterSpace : Bool) (cs : List Char) :
    ∀ c ∈ keyRun afterSpace cs, isBreak c = false := by
  fun_induction keyRun afterSpace cs with
  | case1 => nofun
  | case2 => nofun
  | case3 afterSpace c rest hgo ih =>
      refine List.forall_mem_cons.2 ⟨?_, ih⟩
      simp only [Bool.or_eq_true, not_or] at hgo
      simpa using hgo.1.1

theorem unbroken_plainRun (afterSpace : Bool) (cs : List Char) :
    ∀ c ∈ plainRun afterSpace cs, isBreak c = false := by
  fun_induction plainRun afterSpace cs with
  | case1 => nofun
  | case2 => nofun
  | case3 afterSpace c rest hgo ih =>
      refine List.forall_mem_cons.2 ⟨?_, ih⟩
      simp only [Bool.or_eq_true, not_or] at hgo
      simpa using hgo.1

section
variable {p q : Place} {raw : List Char}

theorem lineText_quotedText (hstarts : startsQuote p.ahead = true) (h : quotedText p = .ok (raw, q)) :
    LineText raw := by
  obtain ⟨quote, inner, hquote, henclosed, rfl⟩ := enclosed_of_quotedText hstarts h
  exact .quoted hquote henclosed

theorem lineText_key (h : key p = .ok (raw, q)) : LineText raw := by
  cases hquote : startsQuote p.ahead with
  | true =>
      rw [key, if_pos hquote] at h
      exact lineText_quotedText hquote h
  | false =>
      obtain ⟨gap, rest, hahead, hrun, _⟩ := (key_plain_eq_ok hquote).1 h
      refine .plain (fun c hc => unbroken_keyRun false p.ahead c ?_)
        (startsQuote_of_starts ⟨_, hahead.symm⟩ hquote)
      rw [hrun]
      exact List.mem_append_left gap hc

theorem lineText_scalarText (h : scalarText p = .ok (raw, q)) : LineText raw := by
  obtain ⟨_, ⟨hquote, htext, _⟩ | ⟨hquote, hrun, _⟩⟩ := scalarText_eq_ok.1 h
  · exact lineText_quotedText hquote htext
  · have hahead := plainScalar_append p.ahead
    rw [hrun] at hahead
    rw [plainScalar, Prod.mk.injEq] at hrun
    refine .plain (fun c hc => unbroken_plainRun false p.ahead c ?_)
      (startsQuote_of_starts ⟨_, hahead⟩ hquote)
    rw [← hrun.1] at hc
    exact (trimSpaces_starts _).subset hc

end

end Codemod.Yaml
