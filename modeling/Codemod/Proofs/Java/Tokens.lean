import Codemod.Java.Token.Scan
import Codemod.Proofs.Outcome
import Codemod.Proofs.Tree.Lexemes
import Mathlib.Data.List.TakeWhile
import Mathlib.Tactic.SplitIfs
import Mathlib.Tactic.Tauto

/-!
The tokens of a text. The main statements say that the tokens together are the text, and that
the kind of a token fits its characters.
-/

namespace Codemod.Java

open Codemod.Tree

/-- The kind of a token in front of the end fits its characters: a keyword is one of the
language, and an identifier is a word. -/
structure Genuine (token : Token) : Prop where
  kind_ne_eof : token.kind ≠ .eof
  isKeyword : token.kind = .keyword → isKeyword token.text = true
  word : token.kind = .identifier → ∀ c ∈ token.text.toList, continuesWord c = true

theorem Genuine.noDot {token : Token} (h : Genuine token) (hkind : token.kind = .identifier) :
    '.' ∉ token.text.toList :=
  fun hdot => absurd (h.word hkind _ hdot) (by decide)

/-- The kinds of all tokens in front of the end fit their characters. -/
def Tokens.Genuine (tokens : Tokens) : Prop :=
  ∀ lexed ∈ tokens.ahead, Java.Genuine lexed.token

namespace Scan

theorem trivia_append {state : TriviaState} {offset : Nat} {cs taken left : List Char}
    (h : trivia state offset cs = .ok (taken, left)) : taken ++ left = cs := by
  fun_induction trivia state offset cs generalizing taken left with
  | case1 => cases h
  | case2 => cases h; rfl
  | case3 offset rest ih =>
      obtain ⟨⟨taken', left'⟩, hrest, hok⟩ := bind_eq_ok.1 h
      cases hok
      simp [ih hrest]
  | case4 offset rest ih =>
      obtain ⟨⟨taken', left'⟩, hrest, hok⟩ := bind_eq_ok.1 h
      cases hok
      simp [ih hrest]
  | case5 => cases h; rfl
  | case6 offset c rest hc hblank ih =>
      obtain ⟨⟨taken', left'⟩, hrest, hok⟩ := bind_eq_ok.1 h
      cases hok
      simp [ih hrest]
  | case7 => cases h; rfl
  | case8 offset c rest next =>
      rename_i ih
      obtain ⟨⟨taken', left'⟩, hrest, hok⟩ := bind_eq_ok.1 h
      cases hok
      simp [ih hrest]
  | case9 offset c rest start asterisk next =>
      rename_i ih
      obtain ⟨⟨taken', left'⟩, hrest, hok⟩ := bind_eq_ok.1 h
      cases hok
      simp [ih hrest]

theorem number_append (hex : Bool) (previous : Char) (cs : List Char) :
    (number hex previous cs).1 ++ (number hex previous cs).2 = cs := by
  fun_induction number hex previous cs with
  | case1 => rfl
  | case2 previous c rest hc taken left hrest ih =>
      rw [hrest] at ih
      simpa using ih
  | case3 => rfl

theorem quoted_append {quote : Char} {escaped : Bool} {cs taken left : List Char}
    (h : quoted quote escaped cs = some (taken, left)) : taken ++ left = cs := by
  fun_induction quoted quote escaped cs generalizing taken left with
  | case1 => cases h
  | case2 => cases h
  | case3 => cases h; rfl
  | case4 escaped c rest hbreak hquote ih =>
      obtain ⟨⟨taken', left'⟩, hrest, hok⟩ := Option.bind_eq_some_iff.1 h
      cases hok
      simp [ih hrest]

theorem sign?_append {cs : List Char} {sign : String} (h : sign? cs = some sign) :
    sign.toList ++ cs.drop sign.toList.length = cs := by
  have hsign := List.find?_some h
  exact List.prefix_iff_eq_append.1 (List.isPrefixOf_iff_prefix.1 hsign)

theorem tokenText_append {offset : Nat} {c : Char} {rest text left : List Char}
    {kind : TokenKind} (h : tokenText offset c rest = .ok (kind, text, left)) :
    text ++ left = c :: rest := by
  unfold tokenText at h
  split_ifs at h with hword hnumber hstring hblock hcharacter
  · cases h
    simp
  · simp only [Except.ok.injEq, Prod.mk.injEq] at h
    obtain ⟨-, rfl, rfl⟩ := h
    exact number_append _ _ _
  · split at h
    · rename_i hquoted
      cases h
      simp [quoted_append hquoted]
    · cases h
  · split at h
    · rename_i hquoted
      cases h
      simp [quoted_append hquoted]
    · cases h
  · split at h
    · rename_i hsign
      cases h
      exact sign?_append hsign
    · cases h

theorem printTokens_endTokens (lead : List Char) (start : Nat) :
    (printTokens ((endTokens lead start).toList.map Lexed.token)).toList = lead := by
  simp [endTokens, Tokens.toList, printTokens, Token.print]

theorem printTokens_tokensWithin {limit offset : Nat} {cs : List Char} {tokens : Tokens}
    (h : tokensWithin limit offset cs = .ok tokens) :
    (printTokens (tokens.toList.map Lexed.token)).toList = cs := by
  induction limit generalizing offset cs tokens with
  | zero =>
      obtain ⟨⟨lead, rest⟩, hlead, h⟩ := bind_eq_ok.1 h
      cases rest with
      | nil =>
          cases h
          rw [printTokens_endTokens, ← trivia_append hlead, List.append_nil]
      | cons c rest => cases h
  | succ limit ih =>
      obtain ⟨⟨lead, rest⟩, hlead, h⟩ := bind_eq_ok.1 h
      cases rest with
      | nil =>
          cases h
          rw [printTokens_endTokens, ← trivia_append hlead, List.append_nil]
      | cons c rest =>
          obtain ⟨⟨kind, text, left⟩, htext, h⟩ := bind_eq_ok.1 h
          obtain ⟨others, hothers, h⟩ := bind_eq_ok.1 h
          cases h
          have hrest := ih hothers
          simp only [Tokens.toList, Tokens.cons, List.cons_append, List.map_cons,
            printTokens, Token.print, String.toList_append, String.toList_ofList] at hrest ⊢
          rw [hrest, List.append_assoc, tokenText_append htext, trivia_append hlead]

theorem continuesWord_of_startsWord {c : Char} (h : startsWord c = true) :
    continuesWord c = true := by
  simp only [startsWord, continuesWord, Text.isAlphanumeric, Bool.or_eq_true] at h ⊢
  tauto

theorem genuine_word {c : Char} {rest : List Char} {lead : String} (h : startsWord c = true) :
    Genuine ⟨wordKind (String.ofList (c :: rest.takeWhile continuesWord)), lead,
      String.ofList (c :: rest.takeWhile continuesWord)⟩ := by
  constructor
  · simp only [wordKind]
    split_ifs <;> simp
  · simp only [wordKind]
    split_ifs with hliteral hkeyword
    · simp
    · exact fun _ => hkeyword
    · simp
  · intro _ d hd
    rw [String.toList_ofList, List.mem_cons] at hd
    rcases hd with rfl | hd
    · exact continuesWord_of_startsWord h
    · exact List.mem_takeWhile_imp hd

theorem genuine_of_kind {kind : TokenKind} {lead text : String}
    (h : kind = .literal ∨ kind = .punct) : Genuine ⟨kind, lead, text⟩ := by
  rcases h with rfl | rfl <;> constructor <;> simp

theorem genuine_tokenText {offset : Nat} {c : Char} {rest text left : List Char}
    {kind : TokenKind} {lead : String} (h : tokenText offset c rest = .ok (kind, text, left)) :
    Genuine ⟨kind, lead, String.ofList text⟩ := by
  unfold tokenText at h
  split_ifs at h with hword hnumber hstring hblock hcharacter
  · cases h
    exact genuine_word hword
  · simp only [Except.ok.injEq, Prod.mk.injEq] at h
    exact genuine_of_kind (.inl h.1.symm)
  · split at h <;> cases h
    exact genuine_of_kind (.inl rfl)
  · split at h <;> cases h
    exact genuine_of_kind (.inl rfl)
  · split at h <;> cases h
    exact genuine_of_kind (.inr rfl)

theorem genuine_tokensWithin {limit offset : Nat} {cs : List Char} {tokens : Tokens}
    (h : tokensWithin limit offset cs = .ok tokens) :
    tokens.Genuine ∧ tokens.last.token.kind = .eof := by
  induction limit generalizing offset cs tokens with
  | zero =>
      obtain ⟨⟨lead, rest⟩, hlead, h⟩ := bind_eq_ok.1 h
      cases rest with
      | nil =>
          cases h
          exact ⟨by simp [Tokens.Genuine, endTokens], rfl⟩
      | cons c rest => cases h
  | succ limit ih =>
      obtain ⟨⟨lead, rest⟩, hlead, h⟩ := bind_eq_ok.1 h
      cases rest with
      | nil =>
          cases h
          exact ⟨by simp [Tokens.Genuine, endTokens], rfl⟩
      | cons c rest =>
          obtain ⟨⟨kind, text, left⟩, htext, h⟩ := bind_eq_ok.1 h
          obtain ⟨others, hothers, h⟩ := bind_eq_ok.1 h
          cases h
          obtain ⟨hgenuine, hlast⟩ := ih hothers
          refine ⟨fun lexed hmem => ?_, hlast⟩
          rcases List.mem_cons.1 hmem with rfl | hmem
          · exact genuine_tokenText htext
          · exact hgenuine lexed hmem

end Scan

/-- The tokens of a text are the text, split up. -/
theorem printTokens_tokenize {source : String} {tokens : Tokens}
    (h : tokenize source = .ok tokens) :
    printTokens (tokens.toList.map Lexed.token) = source :=
  String.toList_injective (Scan.printTokens_tokensWithin h)

theorem genuine_tokenize {source : String} {tokens : Tokens} (h : tokenize source = .ok tokens) :
    tokens.Genuine ∧ tokens.last.token.kind = .eof :=
  Scan.genuine_tokensWithin h

end Codemod.Java
