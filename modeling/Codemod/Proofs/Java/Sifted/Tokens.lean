import Codemod.Java.Unit
import Codemod.Proofs.Java.Items
import Codemod.Proofs.Recipes.Semicolons

/-!
Parsers on a text that needless semicolons have left. The tokens are sifted: each goes or is left. What
a parser does with all of them it also does with those that are left, if those that go stand where it
leaves them to a loop; the tests it makes cannot tell the difference, since a semicolon that goes stands
in front of what closes a list, or between members none of which goes on with what is in front of it.
-/

namespace Codemod.Recipes.Semicolons.Sifted

open Codemod.Tree Codemod.Java Codemod.Java.Parser

/-! ### Sifted tokens -/

/-- Tokens, each with whether it goes. -/
abbrev Sifting :=
  List (Lexed × Bool)

namespace Sifting

/-- The words of the tokens that are left. -/
def words (F : Sifting) : List Word :=
  (F.filter fun x => !x.2).map fun x => x.1.token.word

/-- The first token that is left. -/
def front? (F : Sifting) : Option Token :=
  (F.find? fun x => !x.2).map fun x => x.1.token

theorem words_append (F G : Sifting) : words (F ++ G) = words F ++ words G := by
  simp [words]

@[simp] theorem words_nil : words [] = [] :=
  rfl

@[simp] theorem words_kept (l : Lexed) (F : Sifting) :
    words ((l, false) :: F) = l.token.word :: words F :=
  rfl

@[simp] theorem words_gone (l : Lexed) (F : Sifting) : words ((l, true) :: F) = words F :=
  rfl

@[simp] theorem front?_kept (l : Lexed) (F : Sifting) : front? ((l, false) :: F) = some l.token :=
  rfl

@[simp] theorem front?_gone (l : Lexed) (F : Sifting) : front? ((l, true) :: F) = front? F :=
  rfl

/-- The first token is left. -/
def Starts (F : Sifting) : Prop :=
  ∀ x ∈ F.head?, x.2 = false

theorem starts_nil : Starts [] := by
  rintro _ ⟨⟩

theorem Starts.head {x : Lexed × Bool} {F : Sifting} (h : Starts (x :: F)) : ∃ l, x = (l, false) :=
  ⟨x.1, Prod.ext rfl (h x rfl)⟩

theorem starts_kept (l : Lexed) (F : Sifting) : Starts ((l, false) :: F) := by
  rintro _ ⟨⟩
  rfl

end Sifting

/-- The token ends a member of a body or opens the body. -/
def isBound (t : Token) : Bool :=
  isOneOf [Grammar.openBrace, Grammar.closeBrace, ";"] t

/-- The token closes a list. -/
def isClosing (t : Token) : Bool :=
  isOneOf [")", Grammar.closeBrace] t

/-- The token goes on with the statement in front of it. -/
def isClause (t : Token) : Bool :=
  isOneOf ["else", "catch", "finally"] t

/-- The token opens a construct that semicolons can go from. -/
def isScreen (t : Token) : Bool :=
  isOneOf [Grammar.openBrace, "try"] t

/-- Only semicolons go. Where `loose` says that a member of a body has just ended, any that goes stands
in front of something that does not go on with the member; else in front of what closes a list. -/
def Fits : Bool → Sifting → Prop
  | _, [] => True
  | _, (l, false) :: F => Fits (isBound l.token) F
  | loose, (l, true) :: F =>
      isSign l.token ";" = true ∧
        ((Sifting.front? F).any fun t => if loose then !isClause t else isClosing t) = true ∧ Fits loose F

/-- No token goes in front of a construct that semicolons can go from. -/
def Screened : Sifting → Prop
  | [] => True
  | (l, false) :: F => isScreen l.token = true ∨ Screened F
  | (_, true) :: _ => False

/-- What may stand behind a construct: a token that is left, also what goes from the end of a body, also
what closes a list, or, behind a member of a body, further members. -/
inductive Level where
  | kept
  | braced
  | strict
  | loose

namespace Level

/-- How much may stand behind a construct. -/
def rank : Level → Nat
  | kept => 0
  | braced => 1
  | strict => 2
  | loose => 3

/-- The first level asks for as much as the second one. -/
def le (L M : Level) : Bool :=
  Nat.ble L.rank M.rank

/-- The tokens ahead are as the level asks for. -/
def At : Level → Sifting → Prop
  | kept, F => F.Starts ∧ Fits false F
  | braced, F =>
      (F.Starts ∨ (F.front?.any fun t => isSign t Grammar.closeBrace) = true) ∧ Fits false F
  | strict, F => Fits false F
  | loose, F => Fits true F

/-- The level that asks for as much as both. -/
def min (L M : Level) : Level :=
  if L.le M then L else M

theorem le_refl (L : Level) : L.le L = true := by
  cases L <;> rfl

theorem kept_le (L : Level) : kept.le L = true := by
  cases L <;> rfl

theorem min_le_left (L M : Level) : (L.min M).le L = true := by
  cases L <;> cases M <;> rfl

theorem min_le_right (L M : Level) : (L.min M).le M = true := by
  cases L <;> cases M <;> rfl

end Level

theorem isOneOf_disjoint {texts texts' : List String} (h : ∀ text ∈ texts, text ∉ texts') {t : Token}
    (ht : isOneOf texts t = true) : isOneOf texts' t = false := by
  obtain ⟨text, htext, hsign⟩ := List.any_eq_true.1 ht
  rw [← Bool.not_eq_true]
  intro ht'
  obtain ⟨text', htext', hsign'⟩ := List.any_eq_true.1 ht'
  rw [← text_of_isSign hsign', text_of_isSign hsign] at htext'
  exact h text htext htext'

theorem isClause_of_isClosing {t : Token} (h : isClosing t = true) : isClause t = false :=
  isOneOf_disjoint (by decide) h

theorem fits_true {F : Sifting} (h : Fits false F) : Fits true F := by
  induction F with
  | nil => trivial
  | cons x F ih =>
      obtain ⟨l, _ | _⟩ := x
      · exact h
      · obtain ⟨hsign, hnext, hfits⟩ := h
        refine ⟨hsign, ?_, ih hfits⟩
        obtain ⟨t, ht, hclosing⟩ := (Option.any_eq_true _ _).1 hnext
        rw [ht, Option.any_some, if_pos rfl, isClause_of_isClosing (by simpa using hclosing)]
        rfl

theorem Level.At.fits {L : Level} {F : Sifting} (h : L.At F) : Fits true F := by
  cases L with
  | kept => exact fits_true h.2
  | braced => exact fits_true h.2
  | strict => exact fits_true h
  | loose => exact h

theorem Level.At.mono {L M : Level} {F : Sifting} (h : L.At F)
    (hle : L.le M = true) : M.At F := by
  cases M with
  | kept =>
      cases L with
      | kept => exact h
      | _ => cases hle
  | braced =>
      cases L with
      | kept => exact ⟨.inl h.1, h.2⟩
      | braced => exact h
      | _ => cases hle
  | strict =>
      cases L with
      | kept => exact h.2
      | braced => exact h.2
      | strict => exact h
      | loose => cases hle
  | loose => exact h.fits

theorem Sifting.starts_of_head {F : Sifting} {t : Tokens} (ht : t.ahead.head? = F.head?.map Prod.fst)
    {loose : Bool} (hF : Fits loose F) (hfront : isSign (t.nth 0) ";" = false) : F.Starts := by
  cases F with
  | nil => exact starts_nil
  | cons x F =>
      obtain ⟨l, _ | _⟩ := x
      · exact starts_kept l F
      · obtain ⟨rest, hrest⟩ := List.head?_eq_some_iff.1 ht
        rw [Tokens.nth, hrest] at hfront
        exact absurd (hfront.symm.trans hF.1) Bool.false_ne_true

theorem Sifting.Starts.fits {F : Sifting} (hF : F.Starts) {loose : Bool} (h : Fits loose F) :
    Fits false F := by
  cases F with
  | nil => trivial
  | cons x F =>
      obtain ⟨l, rfl⟩ := hF.head
      exact h

theorem fits_behind {l : Lexed} {F : Sifting} {loose : Bool} (h : Fits loose ((l, false) :: F))
    (hbound : isBound l.token = false) : Fits false F := by
  rwa [Fits, hbound] at h

theorem fits_bound {F : Sifting} (h : Fits false F) (loose : Bool) : Fits loose F := by
  cases loose
  · exact h
  · exact fits_true h

theorem Screened.append {F G : Sifting} (hF : Screened F) (hG : Screened G) : Screened (F ++ G) := by
  induction F with
  | nil => exact hG
  | cons x F ih =>
      obtain ⟨l, _ | _⟩ := x
      · exact hF.imp_right ih
      · exact hF.elim

theorem Sifting.Starts.append {F G : Sifting} (hF : F.Starts) (hG : G.Starts) : Starts (F ++ G) := by
  cases F with
  | nil => exact hG
  | cons x F => exact hF

theorem Sifting.Starts.extend {F : Sifting} (hF : F.Starts) (hne : F ≠ []) (G : Sifting) :
    Starts (F ++ G) := by
  cases F with
  | nil => exact absurd rfl hne
  | cons x F => exact hF

theorem Sifting.Starts.exists_cons {F : Sifting} (h : F.Starts) (hne : F ≠ []) :
    ∃ l F', F = (l, false) :: F' := by
  cases F with
  | nil => exact absurd rfl hne
  | cons x F =>
      obtain ⟨l, gone⟩ := x
      obtain rfl : gone = false := h _ rfl
      exact ⟨l, F, rfl⟩

/-! ### What is left -/

/-- The first of the tokens is one that a right shift can go on with. -/
def adjacent (ls : List Lexed) : Bool :=
  ls.head?.any fun l => isOneOf [">", ">="] l.token && l.token.lead.isEmpty

/-- The tokens are those that are left. Signs of a right shift have as much between them as before. -/
inductive Left : Sifting → List Lexed → Prop where
  | nil : Left [] []
  | gone {l : Lexed} {F : Sifting} {ls : List Lexed} (h : Left F ls) : Left ((l, true) :: F) ls
  | kept {l l' : Lexed} {F : Sifting} {ls : List Lexed} (hword : l'.token.word = l.token.word)
      (hshift : isSign l.token ">" = true → adjacent ls = adjacent (F.map Prod.fst)) (h : Left F ls) :
      Left ((l, false) :: F) (l' :: ls)

/-- The second text is what is left of the first one. -/
structure Sifts (F : Sifting) (t t' : Tokens) : Prop where
  all : t.ahead = F.map Prod.fst
  left : Left F t'.ahead
  last : t'.last.token.word = t.last.token.word
  eof : t.last.token.kind = .eof

theorem Left.words {F : Sifting} {ls : List Lexed} (h : Left F ls) :
    ls.map (fun l => l.token.word) = F.words := by
  induction h with
  | nil => rfl
  | gone _ ih => exact ih
  | kept hword _ _ ih => rw [List.map_cons, Sifting.words_kept, hword, ih]

theorem Left.length {F : Sifting} {ls : List Lexed} (h : Left F ls) : ls.length = F.words.length := by
  rw [← h.words, List.length_map]

theorem Left.next {F : Sifting} {ls : List Lexed} (h : Left F ls) :
    ls.head?.map (fun l => l.token.word) = F.front?.map Token.word := by
  induction h with
  | nil => rfl
  | gone _ ih => exact ih
  | kept hword _ _ _ => exact congrArg some hword

theorem word_nth (t : Tokens) :
    (t.nth 0).word = ((t.ahead.head?.map fun l => l.token.word).getD t.last.token.word) := by
  obtain ⟨ahead, last⟩ := t
  cases ahead <;> rfl

namespace Sifts

variable {F : Sifting} {t t' : Tokens}

theorem word_front (h : Sifts F t t') :
    (t'.nth 0).word = (F.front?.map Token.word).getD t.last.token.word := by
  rw [word_nth, h.left.next, h.last]

theorem front_kept (h : Sifts F t t') (hF : F.Starts) : (t'.nth 0).word = (t.nth 0).word := by
  rw [h.word_front, word_nth, h.all]
  cases F with
  | nil => rfl
  | cons x F =>
      obtain ⟨l, rfl⟩ := hF.head
      rfl

theorem front_of_fits (h : Sifts F t t') {loose : Bool} (hF : Fits loose F) :
    (t'.nth 0).word = (t.nth 0).word ∨ isSign (t.nth 0) ";" = true ∧
      ∃ token : Token, token.word = (t'.nth 0).word ∧
        (if loose then !isClause token else isClosing token) = true := by
  cases F with
  | nil => exact .inl (h.front_kept Sifting.starts_nil)
  | cons x F =>
      obtain ⟨l, _ | _⟩ := x
      · exact .inl (h.front_kept (Sifting.starts_kept l F))
      · obtain ⟨hsign, hnext, -⟩ := hF
        obtain ⟨token, htoken, hpasses⟩ := (Option.any_eq_true _ _).1 hnext
        refine .inr ⟨?_, token, ?_, hpasses⟩
        · rw [Tokens.nth, h.all]
          exact hsign
        · rw [h.word_front, Sifting.front?_gone, htoken, Option.map_some, Option.getD_some]

theorem starts (h : Sifts F t t') {loose : Bool} (hF : Fits loose F)
    (hfront : isSign (t.nth 0) ";" = false) : F.Starts :=
  Sifting.starts_of_head (by rw [h.all, List.head?_map]) hF hfront

theorem kept {l : Lexed} (h : Sifts ((l, false) :: F) t t') :
    ∃ l' ls, t = ⟨l :: F.map Prod.fst, t.last⟩ ∧ t' = ⟨l' :: ls, t'.last⟩ ∧
      l'.token.word = l.token.word ∧
      (isSign l.token ">" = true → adjacent ls = adjacent (F.map Prod.fst)) ∧
      Sifts F ⟨F.map Prod.fst, t.last⟩ ⟨ls, t'.last⟩ := by
  obtain ⟨ahead, last⟩ := t
  obtain ⟨ahead', last'⟩ := t'
  obtain ⟨hall, hleft, hlast, heof⟩ := h
  cases hleft with
  | kept hword hshift hleft =>
      cases hall
      exact ⟨_, _, rfl, rfl, hword, hshift, rfl, hleft, hlast, heof⟩

theorem gone {l : Lexed} (h : Sifts ((l, true) :: F) t t') :
    t = ⟨l :: F.map Prod.fst, t.last⟩ ∧ Sifts F ⟨F.map Prod.fst, t.last⟩ t' := by
  obtain ⟨ahead, last⟩ := t
  obtain ⟨hall, hleft, hlast, heof⟩ := h
  cases hleft with
  | gone hleft =>
      cases hall
      exact ⟨rfl, rfl, hleft, hlast, heof⟩

end Sifts

/-! ### Tests -/

/-- The test does not look at the trivia in front of the token. -/
def Leadless (p : Token → Bool) : Prop :=
  ∀ t : Token, p ⟨t.kind, "", t.text⟩ = p t

theorem Leadless.eq {p : Token → Bool} (h : Leadless p) {t t' : Token} (hword : t.word = t'.word) :
    p t = p t' := by
  rw [← h t, ← h t']
  exact congrArg (fun w : Word => p ⟨w.1, "", w.2⟩) hword

theorem leadless_isSign (text : String) : Leadless (isSign · text) :=
  fun _ => rfl

theorem leadless_isOneOf (texts : List String) : Leadless (isOneOf texts) :=
  fun _ => rfl

/-- The test has no for an answer in front of what ends or closes a list. -/
structure Inner (p : Token → Bool) : Prop where
  leadless : Leadless p
  ends : ∀ t, isSign t ";" = true → p t = false
  closes : ∀ t, isClosing t = true → p t = false

theorem Leadless.none {p : Token → Bool} (hp : Leadless p) (texts : List String)
    (h : ([TokenKind.punct, .keyword].all fun kind => texts.all fun text => !p ⟨kind, "", text⟩) = true)
    {t : Token} (ht : isOneOf texts t = true) : p t = false := by
  obtain ⟨text, htext, hsign⟩ := List.any_eq_true.1 ht
  simp only [isSign, Bool.and_eq_true, Bool.or_eq_true, beq_iff_eq] at hsign
  rw [← hp t, hsign.2]
  simp only [List.all_cons, List.all_nil, Bool.and_true, Bool.and_eq_true, List.all_eq_true] at h
  rcases hsign.1 with hkind | hkind <;> rw [hkind]
  · simpa using h.1 text htext
  · simpa using h.2 text htext

theorem inner_of {p : Token → Bool} (hp : Leadless p)
    (h : ([TokenKind.punct, .keyword].all fun kind =>
      [";", ")", "\x7d"].all fun text => !p ⟨kind, "", text⟩) = true) : Inner p := by
  have hone : ∀ t, isOneOf [";", ")", "\x7d"] t = true → p t = false := fun t => hp.none _ h
  refine ⟨hp, fun t ht => hone t ?_, fun t ht => hone t ?_⟩
  · exact List.any_eq_true.2 ⟨";", by simp, ht⟩
  · obtain ⟨text, htext, hsign⟩ := List.any_eq_true.1 ht
    exact List.any_eq_true.2 ⟨text, List.mem_cons_of_mem _ htext, hsign⟩

theorem inner_isSign {text : String} (h : text ≠ ";" ∧ text ≠ ")" ∧ text ≠ "\x7d") :
    Inner (isSign · text) := by
  refine inner_of (leadless_isSign text) ?_
  simp [isSign, h.1.symm, h.2.1.symm, h.2.2.symm]

/-- The answer is the same for what is left of the tokens, as long as they are as the level asks for. -/
structure Blind (L : Level) (c : Parser Bool) : Prop where
  peeks : Peeks c
  same : ∀ {F : Sifting} {t t' : Tokens} {b : Bool}, L.At F → Sifts F t t' →
    c t = .ok (b, t) → c t' = .ok (b, t')

section
variable {L M : Level} {c c' p q : Parser Bool} {r s : Token → Bool}

theorem Blind.mono (h : Blind M c) (hle : L.le M = true) : Blind L c :=
  ⟨h.peeks, fun hF => h.same (hF.mono hle)⟩

theorem blind_pure (b : Bool) : Blind L (pure b) where
  peeks := peeks_pure
  same _ _ h := by
    obtain ⟨rfl, -⟩ := pure_run.1 h
    rfl

theorem Blind.cond (hc : Blind L c) (hp : Blind L p) (hq : Blind L q) :
    Blind L (do if ← c then p else q) where
  peeks := Peeks.cond hc.peeks hp.peeks hq.peeks
  same {F t t' b} hF hsifts h := by
    obtain ⟨answer, v, hanswer, h⟩ := bind_run.1 h
    obtain rfl := hc.peeks hanswer
    refine bind_run.2 ⟨answer, t', hc.same hF hsifts hanswer, ?_⟩
    cases answer
    · exact hq.same hF hsifts h
    · exact hp.same hF hsifts h

theorem Blind.not (hc : Blind L c) : Blind L (do return !(← c)) where
  peeks := Peeks.bind hc.peeks fun _ => peeks_pure
  same {F t t' b} hF hsifts h := by
    obtain ⟨answer, v, hanswer, h⟩ := bind_run.1 h
    obtain rfl := hc.peeks hanswer
    obtain ⟨rfl, -⟩ := pure_run.1 h
    exact bind_run.2 ⟨answer, t', hc.same hF hsifts hanswer, rfl⟩

theorem blind_of_front (h : ∀ {F : Sifting} {t t' : Tokens}, L.At F → Sifts F t t' →
    r (t'.nth 0) = r (t.nth 0)) : Blind L (test r) where
  peeks := peeks_test
  same hF hsifts hrun := by
    cases hrun
    rw [test_run, h hF hsifts]

theorem blind_kept (hr : Leadless r) : Blind .kept (test r) :=
  blind_of_front fun hF hsifts => hr.eq (hsifts.front_kept hF.1)

theorem Inner.front (hr : Inner r) {F : Sifting} {t t' : Tokens} (hF : Fits false F)
    (hsifts : Sifts F t t') : r (t'.nth 0) = r (t.nth 0) := by
  rcases hsifts.front_of_fits hF with hword | ⟨hsign, token, hword, hclosing⟩
  · exact hr.leadless.eq hword
  · rw [hr.ends _ hsign, ← hr.leadless.eq hword, hr.closes _ (by simpa using hclosing)]

theorem blind_inner (hr : Inner r) : Blind .strict (test r) :=
  blind_of_front fun hF hsifts => hr.front hF hsifts

theorem blind_clause (hr : Inner r) (hclause : ∀ t, r t = true → isClause t = true) :
    Blind .loose (test r) := by
  refine blind_of_front fun hF hsifts => ?_
  rcases hsifts.front_of_fits hF with hword | ⟨hsign, token, hword, hnone⟩
  · exact hr.leadless.eq hword
  · rw [hr.ends _ hsign, ← hr.leadless.eq hword, ← Bool.not_eq_true]
    intro htoken
    simp [hclause _ htoken] at hnone

theorem Sifts.second {F : Sifting} {t t' : Tokens} (hsifts : Sifts F t t') (hF : F.Starts ∧ Fits false F)
    (hfront : isBound (t.nth 0) = false) (hs : Inner s) : s (t'.nth 1) = s (t.nth 1) := by
  cases F with
  | nil =>
      obtain ⟨hall, hleft, hlast, -⟩ := hsifts
      cases t with | mk ahead last => cases t' with | mk ahead' last' =>
      cases hall
      cases hleft
      exact hs.leadless.eq hlast
  | cons x F =>
      obtain ⟨l, rfl⟩ := hF.1.head
      obtain ⟨l', ls, ht, ht', -, -, hrest⟩ := hsifts.kept
      rw [ht] at hfront
      rw [ht, ht']
      exact hs.front (fits_behind hF.2 hfront) hrest

/-- The answer is the same for what is left where the first token is left and ends no member. -/
structure BlindInside (c : Parser Bool) : Prop where
  peeks : Peeks c
  same : ∀ {F : Sifting} {t t' : Tokens} {b : Bool}, F.Starts ∧ Fits false F →
    isBound (t.nth 0) = false → Sifts F t t' → c t = .ok (b, t) → c t' = .ok (b, t')

theorem blindInside_second (hs : Inner s) : BlindInside (test s 1) where
  peeks := peeks_test
  same hF hfront hsifts h := by
    cases h
    rw [test_run, hsifts.second hF hfront hs]

theorem Blind.inside (hc : Blind .kept c) : BlindInside c :=
  ⟨hc.peeks, fun hF _ => hc.same hF⟩

theorem BlindInside.cond (hc : BlindInside c) (hp : BlindInside p) (hq : BlindInside q) :
    BlindInside (do if ← c then p else q) where
  peeks := Peeks.cond hc.peeks hp.peeks hq.peeks
  same {F t t' b} hF hfront hsifts h := by
    obtain ⟨answer, v, hanswer, h⟩ := bind_run.1 h
    obtain rfl := hc.peeks hanswer
    refine bind_run.2 ⟨answer, t', hc.same hF hfront hsifts hanswer, ?_⟩
    cases answer
    · exact hq.same hF hfront hsifts h
    · exact hp.same hF hfront hsifts h

theorem BlindInside.not (hc : BlindInside c) : BlindInside (do return !(← c)) where
  peeks := Peeks.bind hc.peeks fun _ => peeks_pure
  same {F t t' b} hF hfront hsifts h := by
    obtain ⟨answer, v, hanswer, h⟩ := bind_run.1 h
    obtain rfl := hc.peeks hanswer
    obtain ⟨rfl, -⟩ := pure_run.1 h
    exact bind_run.2 ⟨answer, t', hc.same hF hfront hsifts hanswer, rfl⟩

/-- Further tests where the first token passes one that none passes which ends a member. -/
theorem blind_guarded (hr : Inner r) (hbound : ∀ t, isBound t = true → r t = false)
    (hc : BlindInside c) (hq : Blind .strict q) : Blind .strict (do if ← test r then c else q) where
  peeks := Peeks.cond peeks_test hc.peeks hq.peeks
  same {F t t' answer} hF hsifts h := by
    obtain ⟨yes, v, hyes, h⟩ := bind_run.1 h
    obtain ⟨rfl, rfl⟩ := pure_run.1 ((test_run r 0 t).symm.trans hyes)
    refine bind_run.2 ⟨r (t'.nth 0), t', rfl, ?_⟩
    rw [hr.front hF hsifts]
    cases hfront : r (v.nth 0) with
    | false =>
        rw [hfront] at h
        exact hq.same hF hsifts h
    | true =>
        rw [hfront] at h
        have hsign : isSign (v.nth 0) ";" = false :=
          Bool.eq_false_iff.2 fun hyes => by simp [hr.ends _ hyes] at hfront
        have hmember : isBound (v.nth 0) = false :=
          Bool.eq_false_iff.2 fun hyes => by simp [hbound _ hyes] at hfront
        exact hc.same ⟨hsifts.starts hF hsign, hF⟩ hmember hsifts h

end

end Codemod.Recipes.Semicolons.Sifted
