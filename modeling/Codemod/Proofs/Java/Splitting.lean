import Codemod.Proofs.Java.Scanning
import Codemod.Proofs.Text.Slices
import Mathlib.Data.List.Infix

/-!
How a text is split up. Each round of the scan takes a character at least, so a scan is never cut
short by the bound on its rounds. The tokens that it gives follow one another without a gap: the
offset of each is the size of what stands in front of its text, and between two texts stand blanks
and whole comments.
-/

namespace Codemod.Java

open Codemod.Tree

/-- Blanks and whole comments. A block comment goes up to the first sign that closes it. A comment
up to the end of its line has a line feed behind it, or nothing at all where the text ends with the
trivia. -/
inductive Filling (atEnd : Bool) : List Char → Prop where
  | nil : Filling atEnd []
  | blank {c : Char} {cs : List Char} (hc : Text.isBlank c = true) (h : Filling atEnd cs) :
      Filling atEnd (c :: cs)
  | line {text cs : List Char} (htext : '\n' ∉ text)
      (hend : cs.head? = some '\n' ∨ cs = [] ∧ atEnd = true) (h : Filling atEnd cs) :
      Filling atEnd ('/' :: '/' :: (text ++ cs))
  | block {text cs : List Char} (htext : ¬ ['*', '/'] <:+: text ++ ['*']) (h : Filling atEnd cs) :
      Filling atEnd ('/' :: '*' :: (text ++ '*' :: '/' :: cs))

/-- The tokens are a text, split up: nothing of it is left out, each token stands at its offset behind
blanks and comments, and the one at the end, which alone is the end, is the only one without text. -/
structure SplitUp (source : String) (tokens : Tokens) : Prop where
  text : printTokens (tokens.toList.map Lexed.token) = source
  offset : ∀ {front behind : List Lexed} {t : Lexed}, tokens.toList = front ++ t :: behind →
    t.offset = (printTokens (front.map Lexed.token) ++ t.token.lead).utf8ByteSize
  lead : ∀ t ∈ tokens.ahead, Filling false t.token.lead.toList
  ahead : ∀ t ∈ tokens.ahead, t.token.text ≠ "" ∧ t.token.kind ≠ .eof
  last : tokens.last.token.text = "" ∧ tokens.last.token.kind = .eof
  lastLead : Filling true tokens.last.token.lead.toList

namespace Scan

/-! ### Trivia -/

/-- What a scan can still take where it stands in the state: the rest of an open comment, and then
blanks and comments. -/
def Pending (atEnd : Bool) : TriviaState → List Char → Prop
  | .outside, taken => Filling atEnd taken
  | .lineComment, taken =>
      ∃ text cs, taken = text ++ cs ∧ '\n' ∉ text ∧
        (cs.head? = some '\n' ∨ cs = [] ∧ atEnd = true) ∧ Filling atEnd cs
  | .blockComment _ asterisk, taken =>
      ∀ front : List Char, ¬ ['*', '/'] <:+: front → (asterisk = true ↔ front.getLast? = some '*') →
        ∃ text cs, front ++ taken = text ++ '*' :: '/' :: cs ∧ ¬ ['*', '/'] <:+: text ++ ['*'] ∧
          Filling atEnd cs

theorem closes_concat {front : List Char} {c : Char} (h : ['*', '/'] <:+: front ++ [c])
    (hfront : ¬ ['*', '/'] <:+: front) : front.getLast? = some '*' ∧ c = '/' := by
  rw [List.infix_concat_iff, or_iff_left hfront] at h
  obtain ⟨others, h⟩ := h
  have hsplit : others ++ ['*'] ++ ['/'] = front ++ [c] := by simpa using h
  obtain ⟨rfl, hc⟩ := List.append_inj' hsplit rfl
  exact ⟨List.getLast?_concat, (List.singleton_inj.1 hc).symm⟩

theorem pending_of_trivia {state : TriviaState} {offset : Nat} {cs taken left : List Char}
    (h : trivia state offset cs = .ok (taken, left)) : Pending left.isEmpty state taken := by
  fun_induction trivia state offset cs generalizing taken left with
  | case1 => cases h
  | case2 state offset hstate =>
      cases h
      cases state with
      | outside => exact .nil
      | lineComment => exact ⟨[], [], rfl, List.not_mem_nil, .inr ⟨rfl, rfl⟩, .nil⟩
      | blockComment start asterisk => exact absurd rfl (hstate start asterisk)
  | case3 offset rest ih =>
      obtain ⟨⟨taken', left'⟩, hrest, hok⟩ := bind_eq_ok.1 h
      cases hok
      obtain ⟨text, cs, rfl, htext, hend, hcs⟩ := ih hrest
      exact .line htext hend hcs
  | case4 offset rest ih =>
      obtain ⟨⟨taken', left'⟩, hrest, hok⟩ := bind_eq_ok.1 h
      cases hok
      obtain ⟨text, cs, heq, htext, hcs⟩ := ih hrest [] (by simp) (by simp)
      rw [List.nil_append] at heq
      exact heq ▸ .block htext hcs
  | case5 => cases h; exact .nil
  | case6 offset c rest hc hblank ih =>
      obtain ⟨⟨taken', left'⟩, hrest, hok⟩ := bind_eq_ok.1 h
      cases hok
      exact .blank hblank (ih hrest)
  | case7 => cases h; exact .nil
  | case8 offset c rest next =>
      rename_i ih
      obtain ⟨⟨taken', left'⟩, hrest, hok⟩ := bind_eq_ok.1 h
      cases hok
      have hnext := ih hrest
      simp only [next] at hnext
      split_ifs at hnext with hbreak
      · subst hbreak
        exact ⟨[], '\n' :: taken', rfl, List.not_mem_nil, .inl rfl, .blank rfl hnext⟩
      · obtain ⟨text, cs, rfl, htext, hend, hcs⟩ := hnext
        refine ⟨c :: text, cs, rfl, ?_, hend, hcs⟩
        rw [List.mem_cons, not_or]
        exact ⟨Ne.symm hbreak, htext⟩
  | case9 offset c rest start asterisk next =>
      rename_i ih
      obtain ⟨⟨taken', left'⟩, hrest, hok⟩ := bind_eq_ok.1 h
      cases hok
      intro front hfront hasterisk
      have hnext := ih hrest
      simp only [next] at hnext
      split_ifs at hnext with hcloses
      · rw [Bool.and_eq_true, decide_eq_true_eq] at hcloses
        obtain ⟨text, rfl⟩ := List.getLast?_eq_some_iff.1 (hasterisk.1 hcloses.1)
        exact ⟨text, taken', by rw [hcloses.2, List.append_assoc]; rfl, hfront, hnext⟩
      · obtain ⟨text, cs, heq, htext, hcs⟩ := hnext (front ++ [c])
          (fun hin => by
            obtain ⟨hlast, rfl⟩ := closes_concat hin hfront
            simp [hasterisk.2 hlast] at hcloses)
          (by simp)
        exact ⟨text, cs, by rw [← heq, List.append_assoc]; rfl, htext, hcs⟩

theorem filling_of_trivia {offset : Nat} {cs lead rest : List Char}
    (h : trivia .outside offset cs = .ok (lead, rest)) : Filling rest.isEmpty lead :=
  pending_of_trivia h

/-! ### The bound on the rounds -/

theorem trivia_error {state : TriviaState} {offset : Nat} {cs : List Char} {e : ParseError}
    (h : trivia state offset cs = .error e) : ∃ start, e = .unterminated .comment start := by
  fun_induction trivia state offset cs generalizing e with
  | case1 => cases h; exact ⟨_, rfl⟩
  | case2 | case5 | case7 => cases h
  | case3 offset rest ih | case4 offset rest ih | case6 offset c rest hc hblank ih =>
      rcases bind_eq_error.1 h with hrest | ⟨_, _, hok⟩
      · exact ih hrest
      · cases hok
  | case8 | case9 =>
      rename_i ih
      rcases bind_eq_error.1 h with hrest | ⟨_, _, hok⟩
      · exact ih hrest
      · cases hok

theorem tokenText_error {offset place : Nat} {c : Char} {rest : List Char} :
    tokenText offset c rest ≠ .error (.stalled place) := by
  intro h
  unfold tokenText at h
  split_ifs at h
  all_goals first | cases h | (split at h <;> cases h)

theorem length_tokenText {offset : Nat} {c : Char} {rest text left : List Char} {kind : TokenKind}
    (h : tokenText offset c rest = .ok (kind, text, left)) : left.length ≤ rest.length := by
  have hlength := congrArg List.length (tokenText_append h)
  have hpos := List.length_pos_of_ne_nil (tokenText_ne_nil h)
  rw [List.length_append, List.length_cons] at hlength
  omega

theorem length_trivia {state : TriviaState} {offset : Nat} {cs lead rest : List Char}
    (h : trivia state offset cs = .ok (lead, rest)) : rest.length ≤ cs.length := by
  have hlength := congrArg List.length (trivia_append h)
  rw [List.length_append] at hlength
  omega

section
variable {limit offset : Nat} {cs lead rest : List Char} {c : Char}

theorem tokensWithin_error {e : ParseError} (h : trivia .outside offset cs = .error e) :
    tokensWithin limit offset cs = .error e := by
  cases limit <;> rw [tokensWithin, h] <;> rfl

theorem tokensWithin_end (h : trivia .outside offset cs = .ok (lead, [])) :
    tokensWithin limit offset cs = .ok (endTokens lead (offset + Text.size lead)) := by
  cases limit <;> rw [tokensWithin, h] <;> rfl

theorem tokensWithin_succ (h : trivia .outside offset cs = .ok (lead, c :: rest)) :
    tokensWithin (limit + 1) offset cs = (do
      let (kind, text, left) ← tokenText (offset + Text.size lead) c rest
      let tokens ← tokensWithin limit (offset + Text.size lead + Text.size text) left
      .ok (tokens.cons
        ⟨⟨kind, String.ofList lead, String.ofList text⟩, offset + Text.size lead⟩)) := by
  rw [tokensWithin, h]
  rfl

end

theorem tokensWithin_bound {limit limit' : Nat} {cs : List Char} (h : cs.length ≤ limit)
    (h' : cs.length ≤ limit') (offset : Nat) :
    tokensWithin limit offset cs = tokensWithin limit' offset cs ∧
      ∀ place, tokensWithin limit offset cs ≠ .error (.stalled place) := by
  induction limit generalizing cs limit' offset with
  | zero =>
      obtain rfl := List.length_eq_zero_iff.1 (Nat.le_zero.1 h)
      have hnil : trivia .outside offset [] = .ok ([], []) := rfl
      rw [tokensWithin_end hnil, tokensWithin_end hnil]
      exact ⟨rfl, nofun⟩
  | succ limit ih =>
      cases htrivia : trivia .outside offset cs with
      | error e =>
          obtain ⟨start, rfl⟩ := trivia_error htrivia
          rw [tokensWithin_error htrivia, tokensWithin_error htrivia]
          exact ⟨rfl, nofun⟩
      | ok split =>
          obtain ⟨lead, rest⟩ := split
          cases rest with
          | nil =>
              rw [tokensWithin_end htrivia, tokensWithin_end htrivia]
              exact ⟨rfl, nofun⟩
          | cons c rest =>
              have hrest := length_trivia htrivia
              rw [List.length_cons] at hrest
              obtain ⟨limit', rfl⟩ := Nat.exists_eq_add_of_le' (show 1 ≤ limit' by omega)
              rw [tokensWithin_succ htrivia, tokensWithin_succ htrivia]
              cases htext : tokenText (offset + Text.size lead) c rest with
              | error e =>
                  refine ⟨rfl, fun place hstalled => ?_⟩
                  cases hstalled
                  exact tokenText_error htext
              | ok token =>
                  obtain ⟨kind, text, left⟩ := token
                  have hleft := length_tokenText htext
                  obtain ⟨hsame, hgoes⟩ := ih (show left.length ≤ limit by omega)
                    (show left.length ≤ limit' by omega)
                    (offset + Text.size lead + Text.size text)
                  refine ⟨?_, fun place hstalled => ?_⟩
                  · show (tokensWithin limit _ left >>= _) = _
                    rw [hsame]
                    rfl
                  · obtain herror | ⟨_, _, hok⟩ :=
                      (bind_eq_error (x := tokensWithin limit _ left)).1 hstalled
                    · exact hgoes place herror
                    · cases hok

/-! ### The places of the tokens -/

theorem tokensWithin_induct {P : Nat → Tokens → Prop}
    (hend : ∀ {offset : Nat} {cs lead : List Char}, trivia .outside offset cs = .ok (lead, []) →
      P offset (endTokens lead (offset + Text.size lead)))
    (hcons : ∀ {offset : Nat} {cs lead rest text left : List Char} {c : Char} {kind : TokenKind}
      {others : Tokens}, trivia .outside offset cs = .ok (lead, c :: rest) →
        tokenText (offset + Text.size lead) c rest = .ok (kind, text, left) →
        P (offset + Text.size lead + Text.size text) others →
        P offset (others.cons
          ⟨⟨kind, String.ofList lead, String.ofList text⟩, offset + Text.size lead⟩))
    {limit offset : Nat} {cs : List Char} {tokens : Tokens}
    (h : tokensWithin limit offset cs = .ok tokens) : P offset tokens := by
  induction limit generalizing offset cs tokens with
  | zero =>
      obtain ⟨⟨lead, rest⟩, hlead, h⟩ := bind_eq_ok.1 h
      cases rest with
      | nil =>
          cases h
          exact hend hlead
      | cons c rest => cases h
  | succ limit ih =>
      obtain ⟨⟨lead, rest⟩, hlead, h⟩ := bind_eq_ok.1 h
      cases rest with
      | nil =>
          cases h
          exact hend hlead
      | cons c rest =>
          obtain ⟨⟨kind, text, left⟩, htext, h⟩ := bind_eq_ok.1 h
          obtain ⟨others, hothers, h⟩ := bind_eq_ok.1 h
          cases h
          exact hcons hlead htext (ih hothers)

theorem offset_tokensWithin {limit offset : Nat} {cs : List Char} {tokens : Tokens}
    (h : tokensWithin limit offset cs = .ok tokens) :
    ∀ {front behind : List Lexed} {t : Lexed}, tokens.toList = front ++ t :: behind →
      t.offset =
        offset + (printTokens (front.map Lexed.token) ++ t.token.lead).utf8ByteSize := by
  refine tokensWithin_induct (P := fun offset tokens =>
    ∀ {front behind : List Lexed} {t : Lexed}, tokens.toList = front ++ t :: behind →
      t.offset = offset + (printTokens (front.map Lexed.token) ++ t.token.lead).utf8ByteSize)
    ?_ ?_ h
  · intro offset cs lead _ front behind t ht
    obtain ⟨rfl, rfl, rfl⟩ : front = [] ∧
        t = ⟨⟨.eof, String.ofList lead, ""⟩, offset + Text.size lead⟩ ∧ behind = [] := by
      cases front with
      | nil => simpa [endTokens, Tokens.toList, eq_comm] using ht
      | cons t' front => simp [endTokens, Tokens.toList] at ht
    simp [printTokens, ← Text.size_toList]
  · intro offset cs lead rest text left c kind others _ _ ih front behind t ht
    cases front with
    | nil =>
        obtain ⟨rfl, -⟩ := List.cons.inj ht
        simp [printTokens, ← Text.size_toList]
    | cons t' front =>
        obtain ⟨rfl, hothers⟩ := List.cons.inj ht
        rw [ih hothers]
        simp [printTokens, Token.print, ← Text.size_toList, Nat.add_assoc]

theorem leads_tokensWithin {limit offset : Nat} {cs : List Char} {tokens : Tokens}
    (h : tokensWithin limit offset cs = .ok tokens) :
    (∀ t ∈ tokens.ahead, Filling false t.token.lead.toList ∧ t.token.text ≠ "") ∧
      Filling true tokens.last.token.lead.toList ∧ tokens.last.token.text = "" := by
  refine tokensWithin_induct (P := fun _ tokens =>
    (∀ t ∈ tokens.ahead, Filling false t.token.lead.toList ∧ t.token.text ≠ "") ∧
      Filling true tokens.last.token.lead.toList ∧ tokens.last.token.text = "") ?_ ?_ h
  · intro offset cs lead hlead
    refine ⟨nofun, ?_, rfl⟩
    rw [endTokens, String.toList_ofList]
    exact filling_of_trivia hlead
  · intro offset cs lead rest text left c kind others hlead htext ih
    refine ⟨List.forall_mem_cons.2 ⟨⟨?_, ?_⟩, ih.1⟩, ih.2⟩
    · rw [String.toList_ofList]
      exact filling_of_trivia hlead
    · intro hempty
      exact tokenText_ne_nil htext (String.ofList_eq_empty_iff.1 hempty)

end Scan

/-- Every text is split up into tokens, or refused for a cause of its own. The bound on the rounds is
never the cause, and a higher one changes nothing. -/
theorem tokenize_splits_up (source : String) :
    (∀ limit, source.toList.length ≤ limit →
        Scan.tokensWithin limit 0 source.toList = tokenize source) ∧
      (∀ place, tokenize source ≠ .error (.stalled place)) ∧
      ∀ tokens, tokenize source = .ok tokens → SplitUp source tokens := by
  have hrounds := Nat.le_refl source.toList.length
  refine ⟨fun limit hlimit => (Scan.tokensWithin_bound hlimit hrounds 0).1,
    (Scan.tokensWithin_bound hrounds hrounds 0).2, fun tokens h => ?_⟩
  obtain ⟨hgenuine, hlast⟩ := genuine_tokenize h
  obtain ⟨hahead, hlead, htext⟩ := Scan.leads_tokensWithin h
  exact
    { text := printTokens_tokenize h
      offset := fun ht => (Scan.offset_tokensWithin h ht).trans (Nat.zero_add _)
      lead := fun t ht => (hahead t ht).1
      ahead := fun t ht => ⟨(hahead t ht).2, (hgenuine t ht).kind_ne_eof⟩
      last := ⟨htext, hlast⟩
      lastLead := hlead }

/-- Comments end at the first asterisk with a slash behind it or at their line's end, the last one with
the text; letters and strings of two bytes and more move the offsets. -/
theorem tokenize_splits_up_comments :
    let source := "/***/ é=\"ü\\\"\" // 1.\n/* // */+ .5e-3; // ende"
    ∃ tokens, tokenize source = .ok tokens ∧ SplitUp source tokens ∧
      tokens.toList.map (fun t => (t.token.lead, t.token.text, t.offset)) =
        [("/***/ ", "é", 6), ("", "=", 8), ("", "\"ü\\\"\"", 9), (" // 1.\n/* // */", "+", 30),
          (" ", ".5e-3", 32), ("", ";", 37), (" // ende", "", 46)] := by
  intro source
  have hparts : (tokenize source).toOption.map
      (fun tokens => tokens.toList.map fun t => (t.token.lead, t.token.text, t.offset)) =
        some [("/***/ ", "é", 6), ("", "=", 8), ("", "\"ü\\\"\"", 9),
          (" // 1.\n/* // */", "+", 30), (" ", ".5e-3", 32), ("", ";", 37), (" // ende", "", 46)] := by
    decide +kernel
  cases htokens : tokenize source with
  | error e =>
      rw [htokens] at hparts
      cases hparts
  | ok tokens =>
      rw [htokens] at hparts
      exact ⟨tokens, rfl, (tokenize_splits_up source).2.2 tokens htokens, Option.some.inj hparts⟩

end Codemod.Java
