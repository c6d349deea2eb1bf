import Codemod.Proofs.Java.Tokens
import Mathlib.Data.List.Find

/-!
Lists of tokens that a scan gives back. A token is split off in front of the text behind it, and a
scan looks only a little way into that text: the first character must not belong to the token, and
behind it a scan tells texts apart only by digits, double quotes and the later characters of signs.
The main statements say that scanning the text of some tokens gives these tokens exactly when each
of them splits off, and that a token still splits off where the text behind it is another one that
the scan cannot tell apart.
-/

namespace Codemod.Java.Scan

open Codemod.Tree

/-! ### Trivia -/

/-- The trivia in front of the text is this one, wherever it stands. -/
def Skips (lead rest : List Char) : Prop :=
  ∀ offset, trivia .outside offset (lead ++ rest) = .ok (lead, rest)

/-- The state of the scan without the place at which a comment starts. -/
def TriviaState.anywhere : TriviaState → TriviaState
  | .blockComment _ asterisk => .blockComment 0 asterisk
  | state => state

theorem trivia_of_ne_slash {c : Char} (hc : c ≠ '/') (offset : Nat) (cs : List Char) :
    trivia .outside offset (c :: cs) =
      if Text.isBlank c then do
        let (taken, left) ← trivia .outside (offset + c.utf8Size) cs
        .ok (c :: taken, left)
      else .ok ([], c :: cs) := by
  rw [trivia.eq_def]
  exact if_neg hc

theorem trivia_of_slash {c : Char} (hline : c ≠ '/') (hblock : c ≠ '*') (offset : Nat)
    (cs : List Char) : trivia .outside offset ('/' :: c :: cs) = .ok ([], '/' :: c :: cs) := by
  rw [trivia.eq_def]
  simp only [if_true]
  split
  · rename_i heq
    cases heq
    exact absurd rfl hline
  · rename_i heq
    cases heq
    exact absurd rfl hblock
  · rfl

theorem skips_nil_cons {c : Char} {cs : List Char} :
    Skips [] (c :: cs) ↔
      Text.isBlank c = false ∧ (c = '/' → ∀ d ∈ cs.head?, d ≠ '/' ∧ d ≠ '*') := by
  constructor
  · intro h
    have h0 := h 0
    rw [List.nil_append] at h0
    refine ⟨?_, ?_⟩
    · by_contra hblank
      rw [Bool.not_eq_false] at hblank
      have hslash : c ≠ '/' := by
        rintro rfl
        revert hblank
        decide
      rw [trivia_of_ne_slash hslash, if_pos hblank] at h0
      obtain ⟨_, _, hok⟩ := bind_eq_ok.1 h0
      cases hok
    · rintro rfl d hd
      obtain ⟨rest, rfl⟩ := List.head?_eq_some_iff.1 hd
      constructor
      all_goals
        rintro rfl
        obtain ⟨_, _, hok⟩ := bind_eq_ok.1 h0
        cases hok
  · rintro ⟨hblank, hslash⟩ offset
    rw [List.nil_append]
    by_cases hc : c = '/'
    · subst hc
      cases cs with
      | nil => rfl
      | cons d rest =>
          obtain ⟨hd, hd'⟩ := hslash rfl d rfl
          exact trivia_of_slash hd hd' offset rest
    · rw [trivia_of_ne_slash hc, hblank]
      rfl

theorem trivia_stops {state : TriviaState} {offset : Nat} {cs taken left : List Char}
    (h : trivia state offset cs = .ok (taken, left)) : Skips [] left := by
  fun_induction trivia state offset cs generalizing taken left with
  | case1 => cases h
  | case2 => cases h; exact fun _ => rfl
  | case3 offset rest ih =>
      obtain ⟨⟨taken', left'⟩, hrest, hok⟩ := bind_eq_ok.1 h
      cases hok
      exact ih hrest
  | case4 offset rest ih =>
      obtain ⟨⟨taken', left'⟩, hrest, hok⟩ := bind_eq_ok.1 h
      cases hok
      exact ih hrest
  | case5 offset rest hline hblock =>
      cases h
      refine skips_nil_cons.2 ⟨by decide, fun _ d hd => ?_⟩
      obtain ⟨rest', rfl⟩ := List.head?_eq_some_iff.1 hd
      exact ⟨fun heq => hline rest' (by rw [heq]), fun heq => hblock rest' (by rw [heq])⟩
  | case6 offset c rest hc hblank ih =>
      obtain ⟨⟨taken', left'⟩, hrest, hok⟩ := bind_eq_ok.1 h
      cases hok
      exact ih hrest
  | case7 offset c rest hc hblank =>
      cases h
      exact skips_nil_cons.2 ⟨by simpa using hblank, fun heq => absurd heq hc⟩
  | case8 offset c rest next =>
      rename_i ih
      obtain ⟨⟨taken', left'⟩, hrest, hok⟩ := bind_eq_ok.1 h
      cases hok
      exact ih hrest
  | case9 offset c rest start asterisk next =>
      rename_i ih
      obtain ⟨⟨taken', left'⟩, hrest, hok⟩ := bind_eq_ok.1 h
      cases hok
      exact ih hrest

theorem trivia_left {state state' : TriviaState} {offset offset' : Nat}
    {cs taken left left' : List Char} (h : trivia state offset cs = .ok (taken, left))
    (hstate : state.anywhere = state'.anywhere) (hleft : left = [] → left' = [])
    (hstops : Skips [] left') : trivia state' offset' (taken ++ left') = .ok (taken, left') := by
  fun_induction trivia state offset cs generalizing taken left state' offset' with
  | case1 => cases h
  | case2 state offset hstate' =>
      cases h
      rw [hleft rfl]
      cases state' with
      | blockComment start asterisk =>
          cases state with
          | blockComment start' asterisk' => exact absurd rfl (hstate' start' asterisk')
          | outside => cases hstate
          | lineComment => cases hstate
      | outside => rfl
      | lineComment => rfl
  | case3 offset rest ih =>
      obtain ⟨⟨taken', left₁⟩, hrest, hok⟩ := bind_eq_ok.1 h
      cases hok
      cases state' <;> cases hstate
      show (trivia .lineComment (offset' + 2) (taken' ++ left') >>= _) = _
      rw [ih hrest rfl hleft]
      rfl
  | case4 offset rest ih =>
      obtain ⟨⟨taken', left₁⟩, hrest, hok⟩ := bind_eq_ok.1 h
      cases hok
      cases state' <;> cases hstate
      have hopened : (TriviaState.blockComment offset false).anywhere =
          (TriviaState.blockComment offset' false).anywhere := rfl
      show (trivia (.blockComment offset' false) (offset' + 2) (taken' ++ left') >>= _) = _
      rw [ih hrest hopened hleft]
      rfl
  | case5 =>
      cases h
      cases state' <;> cases hstate
      exact hstops offset'
  | case6 offset c rest hc hblank ih =>
      obtain ⟨⟨taken', left₁⟩, hrest, hok⟩ := bind_eq_ok.1 h
      cases hok
      cases state' <;> cases hstate
      rw [List.cons_append, trivia_of_ne_slash hc, if_pos hblank, ih hrest rfl hleft]
      rfl
  | case7 =>
      cases h
      cases state' <;> cases hstate
      exact hstops offset'
  | case8 offset c rest next =>
      rename_i ih
      obtain ⟨⟨taken', left₁⟩, hrest, hok⟩ := bind_eq_ok.1 h
      cases hok
      cases state' <;> cases hstate
      rw [List.cons_append, trivia, ih hrest rfl hleft]
      rfl
  | case9 offset c rest start asterisk next =>
      rename_i ih
      obtain ⟨⟨taken', left₁⟩, hrest, hok⟩ := bind_eq_ok.1 h
      cases hok
      cases state' with
      | outside => cases hstate
      | lineComment => cases hstate
      | blockComment start' asterisk' =>
          cases hstate
          rw [List.cons_append, trivia, ih hrest ?_ hleft]
          · rfl
          · simp only [next]
            split <;> rfl

theorem skips_of_trivia {offset : Nat} {cs taken left : List Char}
    (h : trivia .outside offset cs = .ok (taken, left)) : Skips taken left :=
  fun _ => trivia_left h rfl id (trivia_stops h)

theorem Skips.stops {lead rest : List Char} (h : Skips lead rest) : Skips [] rest :=
  trivia_stops (h 0)

theorem Skips.before {lead rest rest' : List Char} (h : Skips lead rest) (hrest : rest ≠ [])
    (hstops : Skips [] rest') : Skips lead rest' :=
  fun _ => trivia_left (h 0) rfl (fun hnil => absurd hnil hrest) hstops

theorem skips_blank_cons {c : Char} {lead rest : List Char} (hc : Text.isBlank c = true) :
    Skips (c :: lead) rest ↔ Skips lead rest := by
  have hslash : c ≠ '/' := by
    rintro rfl
    revert hc
    decide
  constructor
  · intro h
    have h0 := h 0
    rw [List.cons_append, trivia_of_ne_slash hslash, if_pos hc] at h0
    obtain ⟨⟨taken, left⟩, htrivia, hok⟩ := bind_eq_ok.1 h0
    cases hok
    exact skips_of_trivia htrivia
  · intro h offset
    rw [List.cons_append, trivia_of_ne_slash hslash, if_pos hc, h]
    rfl

theorem skips_blanks {lead rest : List Char} (hblank : ∀ c ∈ lead, Text.isBlank c = true)
    (hstops : Skips [] rest) : Skips lead rest := by
  induction lead with
  | nil => exact hstops
  | cons c lead ih =>
      rw [skips_blank_cons (hblank c List.mem_cons_self)]
      exact ih fun d hd => hblank d (List.mem_cons_of_mem c hd)

theorem Skips.head {c : Char} {lead rest : List Char} (h : Skips (c :: lead) rest) :
    Text.isBlank c = true ∨ c = '/' := by
  by_contra hne
  rw [not_or, Bool.not_eq_true] at hne
  have hnil : Skips [] (c :: (lead ++ rest)) :=
    skips_nil_cons.2 ⟨hne.1, fun heq => absurd heq hne.2⟩
  cases (h 0).symm.trans (hnil 0)

/-! ### The text behind a token -/

/-- A token never goes on with the character because of what stands behind it, nor does a sign or an
empty literal: it is no digit, no double quote and no later character of a sign. -/
def Inert (c : Char) : Prop :=
  (∀ sign ∈ signs, c ∉ sign.toList.tail) ∧ c.isDigit = false ∧ c ≠ '"'

/-- The text starts with such a character, or is empty. -/
def Guarded (cs : List Char) : Prop :=
  ∀ c ∈ cs.head?, Inert c

/-- The texts are the same up to a place at which each is guarded, or throughout. -/
inductive Alike : List Char → List Char → Prop where
  | refl (cs : List Char) : Alike cs cs
  | guarded {cs ds : List Char} (hcs : Guarded cs) (hds : Guarded ds) : Alike cs ds
  | cons {cs ds : List Char} (c : Char) (h : Alike cs ds) : Alike (c :: cs) (c :: ds)

theorem Alike.append {cs ds : List Char} (h : Alike cs ds) (shared : List Char) :
    Alike (shared ++ cs) (shared ++ ds) := by
  induction shared with
  | nil => exact h
  | cons c shared ih => exact .cons c ih

theorem Alike.startsWithDigit {cs ds : List Char} (h : Alike cs ds) :
    startsWithDigit cs = startsWithDigit ds := by
  have hguarded : ∀ {cs : List Char}, Guarded cs → Scan.startsWithDigit cs = false := by
    intro cs hcs
    cases cs with
    | nil => rfl
    | cons c cs => exact (hcs c rfl).2.1
  cases h with
  | refl => rfl
  | guarded hcs hds => rw [hguarded hcs, hguarded hds]
  | cons => rfl

theorem isPrefixOf_guarded {xs cs : List Char} (hxs : ∀ x ∈ xs, ¬ Inert x) (hcs : Guarded cs) :
    xs.isPrefixOf cs = xs.isEmpty := by
  cases xs with
  | nil => cases cs <;> rfl
  | cons x xs =>
      cases cs with
      | nil => rfl
      | cons c cs =>
          have hne : (x == c) = false := by
            rw [beq_eq_false_iff_ne]
            rintro rfl
            exact hxs x List.mem_cons_self (hcs x rfl)
          rw [List.isPrefixOf, hne]
          rfl

theorem Alike.isPrefixOf {xs cs ds : List Char} (h : Alike cs ds) (hxs : ∀ x ∈ xs, ¬ Inert x) :
    xs.isPrefixOf cs = xs.isPrefixOf ds := by
  induction h generalizing xs with
  | refl => rfl
  | guarded hcs hds => rw [isPrefixOf_guarded hxs hcs, isPrefixOf_guarded hxs hds]
  | cons c _ ih =>
      cases xs with
      | nil => rfl
      | cons x xs =>
          rw [List.isPrefixOf, List.isPrefixOf, ih fun y hy => hxs y (List.mem_cons_of_mem x hy)]

theorem Alike.sign? {cs ds : List Char} (h : Alike cs ds) (c : Char) :
    sign? (c :: cs) = sign? (c :: ds) := by
  refine List.find?_congr fun sign hsign => ?_
  cases htext : sign.toList with
  | nil => rfl
  | cons x xs =>
      rw [List.isPrefixOf, List.isPrefixOf, h.isPrefixOf]
      intro y hy hinert
      refine hinert.1 sign hsign ?_
      rwa [htext]

theorem Alike.isTextBlock {cs ds : List Char} (h : Alike cs ds) :
    ['"', '"'].isPrefixOf cs = ['"', '"'].isPrefixOf ds := by
  apply h.isPrefixOf
  intro x hx hinert
  have hquote : x = '"' := by simpa using hx
  exact hinert.2.2 hquote

theorem startsNumber_of_ne_dot {c : Char} (hc : c ≠ '.') (cs : List Char) :
    startsNumber (c :: cs) = c.isDigit := by
  rw [startsNumber.eq_def]
  split
  · rename_i heq
    cases heq
    exact absurd rfl hc
  · rfl

theorem Alike.startsNumber {cs ds : List Char} (h : Alike cs ds) (c : Char) :
    startsNumber (c :: cs) = startsNumber (c :: ds) := by
  by_cases hc : c = '.'
  · subst hc
    exact h.startsWithDigit
  · rw [startsNumber_of_ne_dot hc, startsNumber_of_ne_dot hc]

theorem Alike.continuesNumber {cs ds : List Char} (h : Alike cs ds) (hex : Bool)
    (previous c : Char) : continuesNumber hex previous c cs = continuesNumber hex previous c ds := by
  simp only [Scan.continuesNumber, h.startsWithDigit]

theorem inert_of_class {p : Char → Bool}
    (hsigns : (signs.all fun sign => sign.toList.tail.all fun c => !p c) = true)
    (hdigits : ∀ k < 10, p (Char.ofNat (48 + k)) = false) (hquote : p '"' = false) {c : Char}
    (hc : p c = true) : Inert c := by
  have hne : ¬ p c = false := by
    rw [hc]
    exact Bool.true_eq_false_eq_False
  simp only [List.all_eq_true, Bool.not_eq_true'] at hsigns
  refine ⟨fun sign hsign htail => hne (hsigns sign hsign c htail), ?_, fun heq => hne (heq ▸ hquote)⟩
  by_contra hdigit
  rw [Bool.not_eq_false, Char.isDigit_iff_toNat] at hdigit
  have hlow : 48 ≤ c.toNat := hdigit.1
  have hhigh : c.toNat ≤ 57 := hdigit.2
  have hvalue := hdigits (c.toNat - 48) (by omega)
  rw [Nat.add_sub_cancel' hlow, Char.ofNat_toNat] at hvalue
  exact hne hvalue

theorem inert_of_startsWord {c : Char} (h : startsWord c = true) : Inert c :=
  inert_of_class (by decide) (by decide) (by decide) h

theorem inert_of_isBlank {c : Char} (h : Text.isBlank c = true) : Inert c :=
  inert_of_class (by decide) (by decide) (by decide) h

theorem inert_slash : Inert '/' :=
  inert_of_class (p := (· == '/')) (by decide) (by decide) (by decide) rfl

theorem inert_semicolon : Inert ';' :=
  inert_of_class (p := (· == ';')) (by decide) (by decide) (by decide) rfl

theorem continuesWord_of_isBlank {c : Char} (h : Text.isBlank c = true) :
    continuesWord c = false := by
  have hall : ∀ r ∈ Text.blankRanges, ∀ k < r.2 + 1 - r.1,
      continuesWord (Char.ofNat (r.1 + k)) = false := by
    decide +kernel
  obtain ⟨r, hr, hlow, hhigh⟩ := (Text.Ranges.holds_iff _ c).1 h
  have hc := hall r hr (c.toNat - r.1) (by omega)
  rwa [Nat.add_sub_cancel' hlow, Char.ofNat_toNat] at hc

theorem not_isBlank_of_continuesWord {c : Char} (h : continuesWord c = true) :
    Text.isBlank c = false := by
  by_contra hblank
  rw [Bool.not_eq_false] at hblank
  cases h.symm.trans (continuesWord_of_isBlank hblank)

/-! ### The text of a token -/

/-- The token does not go on into the text behind it, nor does it start a comment there. -/
def Severed (kind : TokenKind) (text rest : List Char) : Prop :=
  ∀ c ∈ rest.head?, (text = ['/'] → c ≠ '/' ∧ c ≠ '*') ∧ (kind = .punct ∨ continuesWord c = false)

/-- The scan takes this token off the front and leaves the text behind it, wherever it stands. -/
def Reads (kind : TokenKind) (text rest : List Char) : Prop :=
  ∃ c cs, text = c :: cs ∧ ∀ offset, tokenText offset c (cs ++ rest) = .ok (kind, text, rest)

theorem takeWhile_of_head {p : Char → Bool} {cs rest : List Char} (hall : ∀ c ∈ cs, p c = true)
    (hrest : ∀ c ∈ rest.head?, p c = false) :
    (cs ++ rest).takeWhile p = cs ∧ (cs ++ rest).dropWhile p = rest := by
  rw [List.takeWhile_append_of_pos hall, List.dropWhile_append_of_pos hall]
  cases rest with
  | nil => exact ⟨List.append_nil cs, rfl⟩
  | cons c rest =>
      have hc : ¬ p c = true := by
        rw [hrest c rfl]
        exact Bool.false_ne_true
      rw [List.takeWhile_cons_of_neg hc, List.dropWhile_cons_of_neg hc]
      exact ⟨List.append_nil cs, rfl⟩

theorem continuesWord_of_isAsciiAlphanumeric {c : Char} (h : isAsciiAlphanumeric c = true) :
    continuesWord c = true := by
  simp only [isAsciiAlphanumeric, Bool.or_eq_true] at h
  have hascii : c.toNat < 0x80 := by
    rcases h with halpha | hdigit
    · rcases (Bool.or_eq_true _ _).mp halpha with hupper | hlower
      · have hle : c.val ≤ 'Z'.val := (of_decide_eq_true hupper).2
        exact Nat.lt_of_le_of_lt (UInt32.le_iff_toNat_le.1 hle) (by decide)
      · have hle : c.val ≤ 'z'.val := of_decide_eq_true ((Bool.and_eq_true _ _).mp hlower).2
        exact Nat.lt_of_le_of_lt (UInt32.le_iff_toNat_le.1 hle) (by decide)
    · exact Nat.lt_of_le_of_lt (Char.isDigit_iff_toNat.1 hdigit).2 (by decide)
  simp only [continuesWord, Text.isAlphanumeric, Text.isAlphabetic, Text.isNumeric, if_pos hascii,
    Bool.or_eq_true]
  tauto

theorem Inert.continuesNumber {c : Char} (h : Inert c) (hex : Bool) (previous : Char)
    (cs : List Char) :
    continuesNumber hex previous c cs = (isAsciiAlphanumeric c || decide (c = '_')) := by
  have hdot : c ≠ '.' := by rintro rfl; exact h.1 "..." (by decide) (by decide)
  have hplus : c ≠ '+' := by rintro rfl; exact h.1 "++" (by decide) (by decide)
  have hminus : c ≠ '-' := by rintro rfl; exact h.1 "--" (by decide) (by decide)
  simp [Scan.continuesNumber, hdot, hplus, hminus]

theorem number_stops {hex : Bool} {previous c : Char} {cs : List Char} :
    number hex previous (c :: cs) = ([], c :: cs) ↔ continuesNumber hex previous c cs = false := by
  cases hc : continuesNumber hex previous c cs <;> simp [number, hc]

theorem number_continues {hex : Bool} {previous c : Char} {cs taken left : List Char} :
    number hex previous (c :: cs) = (c :: taken, left) ↔
      continuesNumber hex previous c cs = true ∧ number hex c cs = (taken, left) := by
  cases hc : continuesNumber hex previous c cs <;> simp [number, hc, Prod.ext_iff]

theorem number_alike {hex : Bool} {previous : Char} {cs rest rest' : List Char}
    (h : number hex previous (cs ++ rest) = (cs, rest)) (halike : Alike rest rest')
    (hhead : rest'.head? = rest.head? ∨ ∀ c ∈ rest'.head?, continuesWord c = false) :
    number hex previous (cs ++ rest') = (cs, rest') := by
  induction cs generalizing previous with
  | nil =>
      rw [List.nil_append] at h ⊢
      cases halike with
      | refl => exact h
      | cons c halike =>
          rw [number_stops] at h ⊢
          rw [← h]
          exact (halike.continuesNumber hex previous c).symm
      | guarded hrest hrest' =>
          cases rest' with
          | nil => rfl
          | cons c rest' =>
              have hc := hrest' c rfl
              rw [number_stops, hc.continuesNumber]
              rcases hhead with hhead | hhead
              · obtain ⟨others, rfl⟩ := List.head?_eq_some_iff.1 hhead.symm
                rwa [number_stops, hc.continuesNumber] at h
              · have hcontinues := hhead c rfl
                rw [Bool.or_eq_false_iff, decide_eq_false_iff_not, ← Bool.not_eq_true]
                constructor
                · intro hascii
                  rw [continuesWord_of_isAsciiAlphanumeric hascii] at hcontinues
                  cases hcontinues
                · rintro rfl
                  revert hcontinues
                  decide
  | cons c cs ih =>
      rw [List.cons_append, number_continues] at h ⊢
      exact ⟨by rw [← h.1, (halike.append cs).continuesNumber], ih h.2⟩

theorem quoted_left {quote : Char} {escaped : Bool} {cs taken left : List Char}
    (h : quoted quote escaped cs = some (taken, left)) (rest : List Char) :
    quoted quote escaped (taken ++ rest) = some (taken, rest) := by
  fun_induction quoted quote escaped cs generalizing taken left with
  | case1 => cases h
  | case2 => cases h
  | case3 escaped c rest hbreak hquote =>
      cases h
      simp only [List.cons_append, List.nil_append, quoted, if_neg hbreak, if_pos hquote]
  | case4 escaped c rest hbreak hquote ih =>
      obtain ⟨⟨taken', left'⟩, hrest, hok⟩ := Option.bind_eq_some_iff.1 h
      cases hok
      rw [List.cons_append, quoted, if_neg hbreak, if_neg hquote, ih hrest]
      rfl

theorem wordKind_ne_punct (word : String) : wordKind word ≠ .punct := by
  unfold wordKind
  split_ifs <;> simp

theorem isHex_cons (c : Char) (cs : List Char) :
    isHex (c :: cs) = (c == '0' && (cs.head? == some 'x' || cs.head? == some 'X')) := by
  rw [isHex.eq_def]
  split
  · rename_i heq
    cases heq
    rfl
  · rename_i heq
    cases heq
    rfl
  · rename_i hx hX
    cases cs with
    | nil => simp
    | cons d cs =>
        rw [eq_comm, Bool.and_eq_false_imp, beq_iff_eq]
        rintro rfl
        have hd : d ≠ 'x' := fun heq => hx cs (by rw [heq])
        have hd' : d ≠ 'X' := fun heq => hX cs (by rw [heq])
        simp [hd, hd']

theorem isHex_alike {c : Char} {cs rest rest' : List Char}
    (h : number (isHex (c :: (cs ++ rest))) ' ' (c :: (cs ++ rest)) = (c :: cs, rest))
    (hhead : rest'.head? = rest.head? ∨ ∀ c ∈ rest'.head?, continuesWord c = false) :
    isHex (c :: (cs ++ rest')) = isHex (c :: (cs ++ rest)) := by
  rw [isHex_cons, isHex_cons]
  cases cs with
  | cons d cs => rfl
  | nil =>
      rw [List.nil_append] at h ⊢
      rcases hhead with hsame | hnone
      · rw [List.nil_append, hsame]
      · have hstops := (number_continues.1 h).2
        have hplain : ∀ {cs : List Char}, (∀ d ∈ cs.head?, d ≠ 'x' ∧ d ≠ 'X') →
            (c == '0' && (cs.head? == some 'x' || cs.head? == some 'X')) = false := by
          intro cs hcs
          cases cs with
          | nil => simp
          | cons d cs => simp [hcs d rfl]
        rw [List.nil_append, hplain, hplain]
        · intro d hd
          obtain ⟨others, rfl⟩ := List.head?_eq_some_iff.1 hd
          rw [number_stops] at hstops
          constructor <;> rintro rfl <;> simp [continuesNumber, isAsciiAlphanumeric] at hstops
        · intro d hd
          have hword := hnone d hd
          constructor <;> rintro rfl <;> revert hword <;> decide

theorem Reads.alike {kind : TokenKind} {text rest rest' : List Char} (h : Reads kind text rest)
    (halike : Alike rest rest') (hhead : rest'.head? = rest.head? ∨ Severed kind text rest') :
    Reads kind text rest' := by
  obtain ⟨c, cs, rfl, htext⟩ := h
  have hends : kind ≠ .punct →
      rest'.head? = rest.head? ∨ ∀ d ∈ rest'.head?, continuesWord d = false :=
    fun hkind => hhead.imp_right fun hsevered d hd => (hsevered d hd).2.resolve_left hkind
  have hshared := halike.append cs
  refine ⟨c, cs, rfl, fun offset => ?_⟩
  have h := htext offset
  unfold tokenText at h ⊢
  rw [← hshared.startsNumber, ← hshared.isTextBlock, ← hshared.sign?]
  split_ifs at h ⊢ with hword hstarts hstring hblock hcharacter
  · simp only [Except.ok.injEq, Prod.mk.injEq, List.cons.injEq, true_and] at h ⊢
    obtain ⟨hkind, htaken, hleft⟩ := h
    have hall : ∀ d ∈ cs, continuesWord d = true := fun d hd =>
      List.mem_takeWhile_imp (htaken.symm ▸ hd)
    have hstop : ∀ d ∈ rest'.head?, continuesWord d = false := by
      rcases hends (by rw [← hkind]; exact wordKind_ne_punct _) with hsame | hnone
      · intro d hd
        rw [hsame, ← hleft] at hd
        simpa [Option.mem_def.1 hd] using List.head?_dropWhile_not continuesWord (cs ++ rest)
      · exact hnone
    obtain ⟨htaken', hleft'⟩ := takeWhile_of_head hall hstop
    rw [htaken', hleft', ← hkind, htaken]
    exact ⟨rfl, rfl, rfl⟩
  · simp only [Except.ok.injEq, Prod.mk.injEq] at h
    obtain ⟨hkind, hnumber⟩ := h
    have hnumber' : number (isHex (c :: (cs ++ rest))) ' ' (c :: (cs ++ rest)) = (c :: cs, rest) :=
      Prod.ext hnumber.1 hnumber.2
    have hends' := hends (by rw [← hkind]; simp)
    have hresult := @number_alike _ ' ' (c :: cs) rest rest' hnumber' halike hends'
    rw [List.cons_append] at hresult
    rw [isHex_alike hnumber' hends', hresult, ← hkind]
  · split at h
    · rename_i hquoted
      cases h
      rw [quoted_left hquoted]
    · cases h
  · split at h
    · rename_i hquoted
      cases h
      rw [quoted_left hquoted]
    · cases h
  · split at h
    · rename_i sign hsign
      simp only [Except.ok.injEq, Prod.mk.injEq] at h ⊢
      refine ⟨h.1, h.2.1, ?_⟩
      rw [h.2.1, ← List.cons_append, List.drop_left]
    · cases h

theorem tokenText_anywhere {offset : Nat} {c : Char} {cs : List Char}
    {result : TokenKind × List Char × List Char} (h : tokenText offset c cs = .ok result)
    (offset' : Nat) : tokenText offset' c cs = .ok result := by
  unfold tokenText at h ⊢
  split_ifs at h ⊢
  · exact h
  · exact h
  · split at h
    · exact h
    · cases h
  · split at h
    · exact h
    · cases h
  · split at h
    · exact h
    · cases h

theorem continuesNumber_of_startsNumber {c : Char} {cs : List Char}
    (h : startsNumber (c :: cs) = true) (hex : Bool) (previous : Char) :
    continuesNumber hex previous c cs = true := by
  by_cases hdot : c = '.'
  · subst hdot
    exact h
  · rw [startsNumber_of_ne_dot hdot] at h
    have hsign : ¬ (c = '+' ∨ c = '-') := by
      rintro (rfl | rfl) <;> revert h <;> decide
    simp [continuesNumber, hdot, hsign, isAsciiAlphanumeric, h]

theorem tokenText_ne_nil {offset : Nat} {c : Char} {cs text left : List Char} {kind : TokenKind}
    (h : tokenText offset c cs = .ok (kind, text, left)) : text ≠ [] := by
  unfold tokenText at h
  split_ifs at h with hword hstarts
  · cases h
    exact List.cons_ne_nil _ _
  · rintro rfl
    simp [number, continuesNumber_of_startsNumber hstarts] at h
  · split at h <;> cases h
    exact List.cons_ne_nil _ _
  · split at h <;> cases h
    exact List.cons_ne_nil _ _
  · split at h <;> cases h
    rename_i sign hsign
    have hall : ∀ sign ∈ signs, sign.toList ≠ [] := by decide
    exact hall sign (List.mem_of_find?_eq_some hsign)

theorem reads_of_tokenText {offset : Nat} {c : Char} {cs text left : List Char} {kind : TokenKind}
    (h : tokenText offset c cs = .ok (kind, text, left)) : Reads kind text left := by
  have happend := tokenText_append h
  obtain ⟨d, text', rfl⟩ := List.exists_cons_of_ne_nil (tokenText_ne_nil h)
  rw [List.cons_append, List.cons.injEq] at happend
  obtain ⟨rfl, rfl⟩ := happend
  exact ⟨d, text', rfl, tokenText_anywhere h⟩

/-! ### Lists of tokens -/

/-- The scan splits the token off in front of the text behind it. -/
structure Splits (t : Token) (rest : List Char) : Prop where
  skips : Skips t.lead.toList (t.text.toList ++ rest)
  reads : Reads t.kind t.text.toList rest

theorem Splits.alike {t : Token} {rest rest' : List Char} (h : Splits t rest)
    (halike : Alike rest rest')
    (hhead : rest'.head? = rest.head? ∨ Severed t.kind t.text.toList rest') : Splits t rest' := by
  obtain ⟨c, cs, htext, -⟩ := h.reads
  refine ⟨h.skips.before (by simp [htext]) ?_, h.reads.alike halike hhead⟩
  have hstops := h.skips.stops
  rw [htext, List.cons_append, skips_nil_cons] at hstops ⊢
  refine ⟨hstops.1, fun hslash => ?_⟩
  cases cs with
  | cons d cs => exact hstops.2 hslash
  | nil =>
      rcases hhead with hsame | hsevered
      · rw [List.nil_append, hsame]
        exact hstops.2 hslash
      · exact fun d hd => (hsevered d hd).1 (by rw [htext, hslash])

/-- Each of the tokens splits off in front of those behind it; the one at the end has no text. -/
inductive Scans : List Token → Prop where
  | last {lead : String} (h : Skips lead.toList []) : Scans [⟨.eof, lead, ""⟩]
  | cons {t : Token} {ts : List Token} (h : Splits t (printTokens ts).toList) (hs : Scans ts) :
      Scans (t :: ts)

theorem scans_tokensWithin {limit offset : Nat} {cs : List Char} {tokens : Tokens}
    (h : tokensWithin limit offset cs = .ok tokens) : Scans (tokens.toList.map Lexed.token) := by
  induction limit generalizing offset cs tokens with
  | zero =>
      obtain ⟨⟨lead, rest⟩, hlead, h⟩ := bind_eq_ok.1 h
      cases rest with
      | nil =>
          cases h
          apply Scans.last
          rw [String.toList_ofList]
          exact skips_of_trivia hlead
      | cons c rest => cases h
  | succ limit ih =>
      obtain ⟨⟨lead, rest⟩, hlead, h⟩ := bind_eq_ok.1 h
      cases rest with
      | nil =>
          cases h
          apply Scans.last
          rw [String.toList_ofList]
          exact skips_of_trivia hlead
      | cons c rest =>
          obtain ⟨⟨kind, text, left⟩, htext, h⟩ := bind_eq_ok.1 h
          obtain ⟨others, hothers, h⟩ := bind_eq_ok.1 h
          cases h
          have hprint : (printTokens (others.toList.map Lexed.token)).toList = left :=
            printTokens_tokensWithin hothers
          show Scans (_ :: others.toList.map Lexed.token)
          refine .cons ⟨?_, ?_⟩ (ih hothers)
          · simp only [String.toList_ofList, hprint, tokenText_append htext]
            exact skips_of_trivia hlead
          · simp only [String.toList_ofList, hprint]
            exact reads_of_tokenText htext

theorem tokensWithin_scans {ts : List Token} (h : Scans ts) {limit : Nat}
    (hlimit : (printTokens ts).toList.length ≤ limit) (offset : Nat) :
    ∃ tokens, tokensWithin limit offset (printTokens ts).toList = .ok tokens ∧
      tokens.toList.map Lexed.token = ts := by
  induction h generalizing limit offset with
  | @last lead hlead =>
      have hprint : (printTokens [⟨.eof, lead, ""⟩]).toList = lead.toList := by
        simp [printTokens, Token.print]
      have hskip := hlead offset
      rw [List.append_nil] at hskip
      rw [hprint]
      refine ⟨endTokens lead.toList (offset + Text.size lead.toList), ?_, ?_⟩
      · cases limit <;> rw [tokensWithin, hskip] <;> rfl
      · simp [endTokens, Tokens.toList]
  | @cons t ts hsplits hs ih =>
      obtain ⟨c, cs, htext, hread⟩ := hsplits.reads
      have hprint : (printTokens (t :: ts)).toList =
          t.lead.toList ++ (t.text.toList ++ (printTokens ts).toList) := by
        simp [printTokens, Token.print]
      rw [hprint] at hlimit ⊢
      cases limit with
      | zero => simp [htext] at hlimit
      | succ limit =>
          have hshort : (printTokens ts).toList.length ≤ limit := by
            simp only [htext, List.length_append, List.length_cons] at hlimit
            omega
          obtain ⟨tokens, htokens, rfl⟩ := ih hshort
            (offset + Text.size t.lead.toList + Text.size t.text.toList)
          refine ⟨tokens.cons ⟨t, offset + Text.size t.lead.toList⟩, ?_, rfl⟩
          rw [tokensWithin, hsplits.skips offset]
          simp only [htext] at hread htokens ⊢
          simp only [List.cons_append, bind, Except.bind, hread, htokens]
          rw [← htext, String.ofList_toList, String.ofList_toList]

end Scan

open Codemod.Tree

/-- Scanning the text of some tokens gives them back exactly if each splits off. -/
theorem tokenize_printTokens {ts : List Token} :
    (∃ tokens, tokenize (printTokens ts) = .ok tokens ∧ tokens.toList.map Lexed.token = ts) ↔
      Scan.Scans ts := by
  constructor
  · rintro ⟨tokens, h, rfl⟩
    exact Scan.scans_tokensWithin h
  · intro h
    exact Scan.tokensWithin_scans h le_rfl 0

end Codemod.Java
