import Codemod.Java.Token.Indexed
import Codemod.Proofs.Java.Splitting

/-!
Texts split into tokens by offsets are split like texts by characters. The scan by offsets never
comes to a wrong place of the text, nor does one of its errors.
-/

namespace Codemod.Java

open Codemod.Text Codemod.Tree

namespace Scan

/-! ### Comments -/

/-- A scan with these characters put in front of what it takes. -/
def behind (front : List Char) (scan : Except ParseError (List Char × List Char)) :
    Except ParseError (List Char × List Char) :=
  scan.map fun (taken, left) => (front ++ taken, left)

theorem behind_nil (scan : Except ParseError (List Char × List Char)) : behind [] scan = scan := by
  cases scan <;> rfl

theorem behind_ok (front left : List Char) : behind front (.ok ([], left)) = .ok (front, left) := by
  simp [behind, Except.map]

theorem behind_behind (front front' : List Char)
    (scan : Except ParseError (List Char × List Char)) :
    behind front (behind front' scan) = behind (front ++ front') scan := by
  cases scan with
  | error e => rfl
  | ok parts => simp [behind, Except.map]

theorem trivia_blank {offset : Nat} {c : Char} {rest : List Char} (hc : isBlank c = true) :
    trivia .outside offset (c :: rest) =
      behind [c] (trivia .outside (offset + c.utf8Size) rest) := by
  have hslash : c ≠ '/' := by
    rintro rfl
    exact absurd hc (by decide)
  rw [trivia_of_ne_slash hslash, if_pos hc]
  rfl

theorem trivia_lineComment (offset : Nat) (cs : List Char) :
    trivia .lineComment offset cs =
      behind (cs.takeWhile (· != '\n'))
        (trivia .outside (offset + size (cs.takeWhile (· != '\n')))
          (cs.dropWhile (· != '\n'))) := by
  induction cs generalizing offset with
  | nil => rfl
  | cons c rest ih =>
      by_cases hc : c = '\n'
      · subst hc
        show _ = behind [] (trivia .outside offset ('\n' :: rest))
        rw [behind_nil, trivia_blank (by decide), trivia, if_pos rfl]
        rfl
      · have hgoes : (c != '\n') = true := by simpa using hc
        rw [List.takeWhile_cons, List.dropWhile_cons, if_pos hgoes, if_pos hgoes, trivia, if_neg hc,
          ih, size_cons, ← Nat.add_assoc]
        exact behind_behind [c] _ _

theorem trivia_asterisk {start offset : Nat} {asterisk : Bool} {cs : List Char}
    (h : asterisk = true → cs.head? ≠ some '/') :
    trivia (.blockComment start asterisk) offset cs =
      trivia (.blockComment start false) offset cs := by
  cases cs with
  | nil => rfl
  | cons c rest =>
      have hopen : (asterisk && decide (c = '/')) = false := by
        cases asterisk with
        | false => rfl
        | true => exact decide_eq_false fun hc => h rfl (congrArg some hc)
      rw [trivia, trivia, hopen]
      rfl

theorem trivia_goes {start offset : Nat} {c : Char} {rest : List Char}
    (h : ['*', '/'].isPrefixOf (c :: rest) = false) :
    trivia (.blockComment start false) offset (c :: rest) =
      behind [c] (trivia (.blockComment start false) (offset + c.utf8Size) rest) := by
  have hnext : decide (c = '*') = true → rest.head? ≠ some '/' := by
    rintro hc hslash
    obtain ⟨others, rfl⟩ := List.head?_eq_some_iff.1 hslash
    rw [of_decide_eq_true hc] at h
    cases h
  rw [trivia, ← trivia_asterisk hnext]
  rfl

theorem trivia_open {cs : List Char} (h : find? ['*', '/'].isPrefixOf cs = none)
    (start offset : Nat) :
    trivia (.blockComment start false) offset cs = .error (.unterminated .comment start) := by
  induction cs generalizing offset with
  | nil => rfl
  | cons c rest ih =>
      rw [find?] at h
      split_ifs at h with hcloses
      rw [trivia_goes (Bool.eq_false_iff.2 hcloses), ih (Option.map_eq_none_iff.1 h)]
      rfl

theorem trivia_closed {cs : List Char} {length : Nat}
    (h : find? ['*', '/'].isPrefixOf cs = some length) :
    ∃ text left, cs = text ++ '*' :: '/' :: left ∧ length = size text ∧ ∀ start offset,
      trivia (.blockComment start false) offset cs =
        behind (text ++ ['*', '/'])
          (trivia .outside (offset + size (text ++ ['*', '/'])) left) := by
  induction cs generalizing length with
  | nil => cases h
  | cons c rest ih =>
      rw [find?] at h
      split_ifs at h with hcloses
      · cases h
        obtain ⟨left, hleft⟩ := List.isPrefixOf_iff_prefix.1 hcloses
        refine ⟨[], left, hleft.symm, rfl, fun start offset => ?_⟩
        rw [← hleft]
        exact behind_behind ['*'] ['/'] _
      · obtain ⟨length', hlength, rfl⟩ := Option.map_eq_some_iff.1 h
        obtain ⟨text, left, rfl, rfl, hclosed⟩ := ih hlength
        refine ⟨c :: text, left, rfl, rfl, fun start offset => ?_⟩
        rw [trivia_goes (Bool.eq_false_iff.2 hcloses), hclosed, behind_behind, Nat.add_assoc]
        rfl

theorem trivia_line (offset : Nat) (rest : List Char) :
    trivia .outside offset (['/', '/'] ++ rest) =
      behind (['/', '/'] ++ rest.takeWhile (· != '\n'))
        (trivia .outside (offset + size (['/', '/'] ++ rest.takeWhile (· != '\n')))
          (rest.dropWhile (· != '\n'))) := by
  rw [← behind_behind, size_append, ← Nat.add_assoc]
  exact congrArg (behind ['/', '/']) (trivia_lineComment (offset + 2) rest)

theorem trivia_block (offset : Nat) (rest : List Char) :
    trivia .outside offset (['/', '*'] ++ rest) =
      behind ['/', '*'] (trivia (.blockComment offset false) (offset + 2) rest) :=
  rfl

theorem trivia_done {c : Char} {rest : List Char} (hblank : isBlank c = false)
    (hline : ['/', '/'].isPrefixOf (c :: rest) = false)
    (hblock : ['/', '*'].isPrefixOf (c :: rest) = false) (offset : Nat) :
    trivia .outside offset (c :: rest) = .ok ([], c :: rest) := by
  refine skips_nil_cons.2 ⟨hblank, fun hc d hd => ?_⟩ offset
  obtain ⟨others, rfl⟩ := List.head?_eq_some_iff.1 hd
  subst hc
  constructor
  · rintro rfl
    cases hline
  · rintro rfl
    cases hblock

end Scan

namespace Indexed

open Scan (behind behind_nil behind_ok behind_behind)

variable {text front : List Char}

/-! ### Trivia -/

theorem retraces_triviaWithin {passed cs : List Char} {limit : Nat}
    (htext : text = front ++ (passed ++ cs)) (hlimit : cs.length < limit) :
    Retraces ParseError.offset text
      (fun x y => x = (y.1, size (front ++ y.1)) ∧ text = front ++ (y.1 ++ y.2))
      (triviaWithin text (size front) limit (size (front ++ passed)))
      (behind passed (Scan.trivia .outside (size (front ++ passed)) cs)) := by
  induction limit generalizing passed cs with
  | zero => exact absurd hlimit (Nat.not_lt_zero _)
  | succ limit ih =>
      have hstep : ∀ part left, part ≠ [] → cs = part ++ left →
          Retraces ParseError.offset text
            (fun x y => x = (y.1, size (front ++ y.1)) ∧ text = front ++ (y.1 ++ y.2))
            (triviaWithin text (size front) limit (size (front ++ passed) + size part))
            (behind passed (behind part
              (Scan.trivia .outside (size (front ++ passed) + size part) left))) := by
        rintro part left hpart rfl
        have hpos := List.length_pos_of_ne_nil hpart
        rw [List.length_append] at hlimit
        have hnext := @ih (passed ++ part) left (by rw [htext, List.append_assoc]) (by omega)
        rwa [← List.append_assoc, size_append (front ++ passed), ← behind_behind] at hnext
      have hfrom : from? text (size (front ++ passed)) = some cs := by
        rw [htext, ← List.append_assoc, from?_append]
      have hslice : slice? text (size front) (size (front ++ passed)) = some passed := by
        rw [htext, slice?_append]
      rw [triviaWithin, lift_bind hfrom]
      split_ifs with hline hblock
      · obtain ⟨rest, rfl⟩ := List.isPrefixOf_iff_prefix.1 hline
        rw [find?_head, Scan.trivia_line]
        refine hstep _ _ (List.cons_ne_nil _ _) ?_
        exact congrArg (['/', '/'] ++ ·) List.takeWhile_append_dropWhile.symm
      · obtain ⟨rest, rfl⟩ := List.isPrefixOf_iff_prefix.1 hblock
        have hinner : from? (['/', '*'] ++ rest) 2 = some rest := from?_append ['/', '*'] rest
        rw [lift_bind hinner, Scan.trivia_block]
        cases hclose : find? ['*', '/'].isPrefixOf rest with
        | none =>
            rw [Scan.trivia_open hclose]
            refine .error ⟨front ++ passed, ['/', '*'] ++ rest, ?_, rfl⟩
            rw [htext, List.append_assoc]
        | some length =>
            obtain ⟨comment, left, rfl, rfl, hclosed⟩ := Scan.trivia_closed hclose
            have hopening : 2 + size (comment ++ ['*', '/']) =
                size (['/', '*'] ++ (comment ++ ['*', '/'])) := (size_append ['/', '*'] _).symm
            have hlength : size comment + 4 = size (['/', '*'] ++ (comment ++ ['*', '/'])) := by
              rw [← hopening, size_append, Nat.add_comm 2]
              rfl
            rw [hclosed, behind_behind ['/', '*'], Nat.add_assoc _ 2, hopening]
            simp only [hlength]
            exact hstep _ _ (List.cons_ne_nil _ _) (by simp)
      · cases cs with
        | nil =>
            have hend : Scan.trivia .outside (size (front ++ passed)) [] = .ok ([], []) := rfl
            rw [lift_bind hslice, hend, behind_ok]
            exact .ok ⟨rfl, htext⟩
        | cons c rest =>
            simp only
            split_ifs with hblank
            · rw [Scan.trivia_blank hblank]
              exact hstep [c] rest (List.cons_ne_nil _ _) rfl
            · rw [lift_bind hslice, Scan.trivia_done (Bool.eq_false_iff.2 hblank)
                (Bool.eq_false_iff.2 hline) (Bool.eq_false_iff.2 hblock), behind_ok]
              exact .ok ⟨rfl, htext⟩

/-! ### Numbers -/

theorem inAscii_isDigit : InAscii Char.isDigit := by
  intro c hc
  by_contra hdigit
  rw [Bool.not_eq_false] at hdigit
  have hlast := (Char.isDigit_iff_toNat.1 hdigit).2
  exact absurd (Nat.le_trans hc hlast) (by decide)

theorem inAscii_isAsciiAlphanumeric : InAscii Scan.isAsciiAlphanumeric := by
  intro c hc
  by_contra hword
  rw [Bool.not_eq_false, Scan.isAsciiAlphanumeric, Bool.or_eq_true] at hword
  rcases hword with halpha | hdigit
  · have hlast : c.val.toNat ≤ 'z'.val.toNat := by
      rcases (Bool.or_eq_true _ _).mp halpha with hupper | hlower
      · have hle : c.val ≤ 'Z'.val := (of_decide_eq_true hupper).2
        exact Nat.le_trans (UInt32.le_iff_toNat_le.1 hle) (by decide)
      · have hle : c.val ≤ 'z'.val := of_decide_eq_true ((Bool.and_eq_true _ _).mp hlower).2
        exact UInt32.le_iff_toNat_le.1 hle
    exact absurd (Nat.le_trans hc hlast) (by decide)
  · rw [inAscii_isDigit c hc] at hdigit
    cases hdigit

theorem continuesNumber_wide {c : Char} (hc : Wide c) (hex : Bool) (previous : Char)
    (rest : List Char) : Scan.continuesNumber hex previous c rest = false := by
  have hne : ∀ a : Char, ¬ Wide a → c ≠ a := fun a ha heq => ha (heq ▸ hc)
  simp only [Scan.continuesNumber, hne '.' (by decide), hne '+' (by decide), hne '-' (by decide),
    hne '_' (by decide), inAscii_isAsciiAlphanumeric c hc, decide_false, Bool.or_self, if_false,
    Bool.false_eq_true]

theorem isExponentSign_eq (hex : Bool) (passed cs : List Char) (c : Char) :
    isExponentSign hex (passed ++ cs) c (size passed) =
      some ((c = '+' || c = '-') && !hex && passed.getLast?.any fun d => d = 'e' || d = 'E') := by
  rcases List.eq_nil_or_concat passed with rfl | ⟨run, d, rfl⟩
  · simp [isExponentSign]
  · obtain ⟨b, hb, hlast⟩ := byte?_last run d cs
    have hletter : InAscii fun d => d = 'e' || d = 'E' :=
      (inAscii_eq (by decide)).or (inAscii_eq (by decide))
    have hpos : 0 < size (run ++ [d]) := by
      have hpos := d.utf8Size_pos
      simp only [size_append, size_cons, size_nil]
      omega
    rw [List.concat_eq_append, isExponentSign, ← List.append_cons, hb, List.getLast?_concat]
    simp only [hpos, decide_true, Bool.and_true, Option.any_some, ← hletter.head hlast]
    split_ifs with hsign
    · rw [hsign]
      rfl
    · rw [Bool.not_eq_true] at hsign
      rw [hsign]
      rfl

theorem stopsNumber_eq (hex : Bool) (passed : List Char) (c : Char) (rest : List Char)
    (hstarts : passed = [] → Scan.startsNumber (c :: rest) = true) :
    stopsNumber hex (passed ++ c :: rest) (size passed) =
      some !(Scan.continuesNumber hex (passed.getLast?.getD ' ') c rest) := by
  obtain ⟨b, hb, hhead⟩ := byte?_head c rest
  rw [stopsNumber, byte?_at, hb]
  simp only [isExponentSign_eq, Option.bind_eq_bind, Option.bind_some]
  obtain rfl | ⟨hbwide, hcwide⟩ := hhead
  · by_cases hdot : b = '.'
    · subst hdot
      have hnext : byte? (passed ++ '.' :: rest) (size passed + 1) = byte? rest 0 := by
        rw [byte?_append]
        exact byte?_at ['.'] rest
      have hdigit : (byte? rest 0).any Char.isDigit = Scan.startsWithDigit rest := by
        rw [any_byte inAscii_isDigit]
        cases rest <;> rfl
      have hdot : Scan.continuesNumber hex (passed.getLast?.getD ' ') '.' rest =
          Scan.startsWithDigit rest := rfl
      rw [hnext, hdigit, hdot]
      -- A number that starts with a dot has a digit behind it.
      cases passed with
      | nil =>
          have hstarts : Scan.startsWithDigit rest = true := hstarts rfl
          rw [hstarts]
          rfl
      | cons d passed =>
          have hpos := d.utf8Size_pos
          have hpassed : 0 < size (d :: passed) := by
            rw [size_cons]
            omega
          rw [decide_eq_true hpassed, Bool.and_true]
          rfl
    · have hgoes : (Scan.isAsciiAlphanumeric b || b = '_' || b = '.' ||
          (b = '+' || b = '-') && !hex &&
            passed.getLast?.any fun d => d = 'e' || d = 'E') =
              Scan.continuesNumber hex (passed.getLast?.getD ' ') b rest := by
        have hletter : (passed.getLast?.any fun d => d = 'e' || d = 'E') =
            (passed.getLast?.getD ' ' = 'e' || passed.getLast?.getD ' ' = 'E') := by
          cases passed.getLast? <;> simp
        rw [hletter]
        by_cases hsign : b = '+' ∨ b = '-'
        · have hword : Scan.isAsciiAlphanumeric b = false ∧ b ≠ '_' := by
            rcases hsign with rfl | rfl <;> decide
          rcases hsign with rfl | rfl <;> simp [Scan.continuesNumber, hword]
        · simp [Scan.continuesNumber, hdot, hsign]
      rw [hgoes, decide_eq_false hdot, Bool.false_and, Bool.false_and]
      cases Scan.continuesNumber hex (passed.getLast?.getD ' ') b rest <;> rfl
  · have hne : ∀ a : Char, ¬ Wide a → b ≠ a := fun a ha heq => ha (heq ▸ hbwide)
    rw [continuesNumber_wide hcwide]
    simp only [inAscii_isAsciiAlphanumeric b hbwide, hne '+' (by decide), hne '-' (by decide),
      hne '_' (by decide), hne '.' (by decide), decide_false, Bool.or_self, Bool.false_and,
      Bool.false_eq_true, if_false]
    rfl

theorem numberLength_eq {cs : List Char} (hstarts : Scan.startsNumber cs = true) :
    numberLength cs = some (size (Scan.number (Scan.isHex cs) ' ' cs).1) := by
  have hhex : (['0', 'x'].isPrefixOf cs || ['0', 'X'].isPrefixOf cs) = Scan.isHex cs := by
    cases cs with
    | nil => rfl
    | cons c rest =>
        rw [Scan.isHex_cons]
        cases rest with
        | nil => simp [List.isPrefixOf]
        | cons d rest =>
            simp only [List.isPrefixOf, Bool.and_true, ← Bool.and_or_distrib_left, List.head?_cons,
              @BEq.comm _ _ _ '0' c, @BEq.comm _ _ _ 'x' d, @BEq.comm _ _ _ 'X' d]
            rfl
  have hrun := @seek_run (stopsNumber (Scan.isHex cs) cs) cs []
    (fun passed rest => (Scan.number (Scan.isHex cs) (passed.getLast?.getD ' ') rest).1)
    (fun passed c rest =>
      !(Scan.continuesNumber (Scan.isHex cs) (passed.getLast?.getD ' ') c rest)) (fun _ => rfl)
    ?_ ?_ ?_ ?_ [] cs rfl
  · rw [numberLength, hhex]
    exact hrun
  · intro passed c rest
    rw [List.getLast?_concat]
    simp only [Scan.number]
    cases Scan.continuesNumber (Scan.isHex cs) (passed.getLast?.getD ' ') c rest <;> rfl
  · rw [stopsNumber, byte?_end]
    rfl
  · intro passed c rest htext
    subst htext
    refine stopsNumber_eq _ passed c rest ?_
    rintro rfl
    exact hstarts
  · intro passed c rest hhalts hsize
    rw [continuesNumber_wide (wide_of_size hsize)] at hhalts
    cases hhalts

/-! ### Tokens -/

theorem startsNumber_eq (c : Char) (rest : List Char) :
    startsNumber c (c :: rest) = some (Scan.startsNumber (c :: rest)) := by
  rw [startsNumber]
  by_cases hdot : c = '.'
  · subst hdot
    have hrest : from? ('.' :: rest) 1 = some rest := from?_append ['.'] rest
    rw [if_neg (by decide), if_pos rfl, hrest]
    rfl
  · rw [Scan.startsNumber_of_ne_dot hdot, if_neg hdot]
    cases c.isDigit <;> rfl

theorem quotedFrom_eq {quote : Char} (hquote : quote ≠ '\\') (escaped : Bool) (index : Nat)
    (cs : List Char) :
    quotedFrom quote escaped index cs =
      (Scan.quoted quote escaped cs).map fun parts => index + size parts.1 := by
  induction cs generalizing escaped index with
  | nil => rfl
  | cons c rest ih =>
      have hcons : ∀ next : Bool, quotedFrom quote next (index + c.utf8Size) rest =
          (Scan.quoted quote next rest >>= fun (taken, left) => some (c :: taken, left)).map
            fun parts => index + size parts.1 := by
        intro next
        rw [ih]
        cases Scan.quoted quote next rest with
        | none => rfl
        | some parts => exact congrArg some (Nat.add_assoc ..)
      rw [quotedFrom, Scan.quoted]
      by_cases hbreak : c = '\n'
      · rw [if_pos hbreak, if_pos hbreak]
        rfl
      rw [if_neg hbreak, if_neg hbreak]
      cases hescape : (c = '\\' && !escaped : Bool) with
      | true =>
          have hclose : ¬ (c = quote && !escaped) = true := by
            simp only [Bool.and_eq_true, decide_eq_true_eq] at hescape ⊢
            exact fun hclose => hquote (hclose.1.symm.trans hescape.1)
          rw [if_pos rfl, if_neg hclose]
          exact hcons true
      | false =>
          rw [if_neg Bool.false_ne_true]
          split_ifs
          · rfl
          · exact hcons false

section
variable {c : Char} {rest : List Char} (htext : text = front ++ c :: rest)
include htext

theorem slice?_taken {taken left : List Char} (happend : taken ++ left = c :: rest) :
    slice? text (size front) (size front + size taken) = some taken := by
  rw [htext, ← happend, ← size_append, slice?_append]

theorem retraces_quoted {what : Unended} (hquote : c ≠ '\\') :
    Retraces ParseError.offset text (fun x y => x = (y.1, y.2.1, size (front ++ y.2.1)))
      (quoted text c what (size front) (c :: rest))
      (match Scan.quoted c false rest with
        | some (taken, left) => .ok (.literal, c :: taken, left)
        | none => .error (.unterminated what (size front))) := by
  rw [quoted, quotedLength, quotedFrom_eq hquote]
  cases hparts : Scan.quoted c false rest with
  | none => exact .error ⟨front, c :: rest, htext, rfl⟩
  | some parts =>
      have happend : (c :: parts.1) ++ parts.2 = c :: rest :=
        congrArg (c :: ·) (Scan.quoted_append hparts)
      have hslice := slice?_taken htext happend
      rw [size_cons] at hslice
      simp only [Option.map_some]
      rw [lift_bind hslice]
      refine .ok ?_
      rw [size_append, size_cons]

theorem retraces_token :
    Retraces ParseError.offset text (fun x y => x = (y.1, y.2.1, size (front ++ y.2.1)))
      (token text (size front) c) (Scan.tokenText (size front) c rest) := by
  have hfrom : from? text (size front) = some (c :: rest) := by rw [htext, from?_append]
  have hplace : Boundary text (size front) := ⟨front, c :: rest, htext, rfl⟩
  rw [token, lift_bind hfrom, Scan.tokenText]
  by_cases hword : startsWord c = true
  · have htake : (c :: rest).takeWhile (fun d => !!continuesWord d) =
        c :: rest.takeWhile continuesWord := by
      simp only [Bool.not_not]
      rw [List.takeWhile_cons, if_pos (Scan.continuesWord_of_startsWord hword)]
    have hword' : upTo? (c :: rest) (size (c :: rest.takeWhile continuesWord)) =
        some (c :: rest.takeWhile continuesWord) := by
      have hcut := upTo?_append (c :: rest.takeWhile continuesWord) (rest.dropWhile continuesWord)
      rwa [List.cons_append, List.takeWhile_append_dropWhile] at hcut
    rw [if_pos hword, if_pos hword, find?_head, htake, lift_bind hword']
    exact .ok (by rw [size_append])
  rw [if_neg hword, if_neg hword, lift_bind (startsNumber_eq c rest)]
  by_cases hnumber : Scan.startsNumber (c :: rest) = true
  · have hlength := numberLength_eq hnumber
    have happend := Scan.number_append (Scan.isHex (c :: rest)) ' ' (c :: rest)
    generalize Scan.number (Scan.isHex (c :: rest)) ' ' (c :: rest) = parts at hlength happend ⊢
    rw [if_pos hnumber, if_pos hnumber, lift_bind hlength, lift_bind (slice?_taken htext happend)]
    exact .ok (by rw [size_append])
  rw [if_neg hnumber, if_neg hnumber]
  by_cases hstring : c = '"'
  · subst hstring
    have hblock : ['"', '"', '"'].isPrefixOf ('"' :: rest) = ['"', '"'].isPrefixOf rest := rfl
    rw [if_pos rfl, if_pos rfl, hblock]
    split_ifs
    · exact .error hplace
    · exact retraces_quoted htext (by decide)
  rw [if_neg hstring, if_neg hstring]
  by_cases hcharacter : c = '\''
  · subst hcharacter
    rw [if_pos rfl, if_pos rfl]
    exact retraces_quoted htext (by decide)
  rw [if_neg hcharacter, if_neg hcharacter]
  cases Scan.sign? (c :: rest) with
  | none => exact .error hplace
  | some sign =>
      refine .ok ?_
      rw [size_append]

end

theorem retraces_trivia {cs : List Char} (htext : text = front ++ cs) :
    Retraces ParseError.offset text
      (fun x y => x = (y.1, size (front ++ y.1)) ∧ text = front ++ (y.1 ++ y.2))
      (triviaWithin text (size front) (text.length + 1) (size front))
      (Scan.trivia .outside (size front) cs) := by
  have hlimit : cs.length < text.length + 1 := by
    rw [htext, List.length_append]
    omega
  have htrivia := @retraces_triviaWithin text front [] cs _ htext hlimit
  rwa [List.append_nil, behind_nil] at htrivia

theorem retraces_tokensWithin {steps limit : Nat} {cs : List Char} (htext : text = front ++ cs)
    (hsteps : cs.length < steps) (hlimit : cs.length ≤ limit) :
    Retraces ParseError.offset text Eq (tokensWithin text steps (size front))
      (Scan.tokensWithin limit (size front) cs) := by
  induction limit generalizing steps front cs with
  | zero =>
      obtain ⟨steps, rfl⟩ : ∃ n, steps = n + 1 := ⟨steps - 1, by omega⟩
      obtain rfl := List.length_eq_zero_iff.1 (Nat.le_zero.1 hlimit)
      have hend : from? text (size front) = some [] := by rw [htext, from?_append]
      rw [tokensWithin, Scan.tokensWithin]
      refine (retraces_trivia htext).bind ?_
      rintro _ _ ⟨rfl, -⟩ hlead
      cases hlead
      simp only [List.append_nil]
      rw [lift_bind hend]
      exact .ok rfl
  | succ limit ih =>
      obtain ⟨steps, rfl⟩ : ∃ n, steps = n + 1 := ⟨steps - 1, by omega⟩
      rw [tokensWithin, Scan.tokensWithin]
      refine (retraces_trivia htext).bind ?_
      rintro _ ⟨lead, rest⟩ ⟨rfl, hsplit⟩ hlead
      simp only at hsplit ⊢
      rw [← List.append_assoc] at hsplit
      have hfrom : from? text (size (front ++ lead)) = some rest := by rw [hsplit, from?_append]
      rw [lift_bind hfrom, ← size_append]
      cases rest with
      | nil => exact .ok rfl
      | cons c rest =>
          refine (retraces_token hsplit).bind ?_
          rintro _ ⟨kind, word, left⟩ rfl hword
          have hshorter : left.length < cs.length := by
            have hrest := Scan.length_trivia hlead
            have hleft := Scan.length_tokenText hword
            rw [List.length_cons] at hrest
            omega
          have hbehind : text = front ++ lead ++ word ++ left := by
            rw [hsplit, ← Scan.tokenText_append hword, ← List.append_assoc]
          have hothers := @ih (front ++ lead ++ word) steps left hbehind (by omega) (by omega)
          rw [size_append (front ++ lead)] at hothers
          simp only [size_append (front ++ lead)]
          refine hothers.bind ?_
          rintro _ others rfl -
          exact .ok rfl

theorem retraces_tokenize (source : String) :
    Retraces ParseError.offset source.toList Eq (tokenize source) (Java.tokenize source) :=
  @retraces_tokensWithin source.toList [] _ _ _ rfl (Nat.lt_succ_self _) le_rfl

end Indexed

end Codemod.Java
