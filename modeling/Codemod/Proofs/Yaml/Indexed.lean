import Codemod.Proofs.Yaml.IndexedPlaces
import Codemod.Proofs.Yaml.Reading

/-!
Documents read by offsets are the documents read by characters. A scan that looks for the end of a
key or a scalar stops between two characters; behind an escape it may stand inside one, from where
it goes on behind that one. So the reader by offsets never comes to a wrong place of the text, nor
does one of its errors.
-/

namespace Codemod.Yaml.Indexed

open Codemod.Text Codemod.Tree

/-! ### Scalars and keys -/

section
variable (before run cs : List Char)

theorem startsComment_eq :
    startsComment (before ++ (run ++ cs)) (size before) (size (before ++ run)) =
      some (run.getLast?.any isSpace) := by
  rcases List.eq_nil_or_concat run with rfl | ⟨run, d, rfl⟩
  · rw [List.append_nil, startsComment, if_neg (Nat.lt_irrefl _)]
    rfl
  · obtain ⟨b, hb, hlast⟩ := byte?_last (before ++ run) d cs
    have htext : before ++ (run ++ [d] ++ cs) = before ++ run ++ d :: cs := by simp
    have hafter : size before < size (before ++ run ++ [d]) := by
      have hpos := d.utf8Size_pos
      simp only [size_append, size_cons, size_nil]
      omega
    rw [List.concat_eq_append, htext, ← List.append_assoc, startsComment, if_pos hafter, hb,
      List.getLast?_concat]
    exact congrArg some (inAscii_isSpace.head hlast)

theorem stopsPlain_wide {text : List Char} {start offset : Nat} {b : Char}
    (hb : byte? text offset = some b) (hwide : Wide b) :
    stopsPlain text start offset = some false := by
  rw [stopsPlain, hb]
  split
  · rename_i heq
    cases heq
  · rename_i heq
    cases heq
    exact absurd hwide (by decide)
  · rename_i heq
    cases heq
    exact congrArg some (inAscii_isBreak b hwide)

theorem stopsPlain_eq (c : Char) (rest : List Char) :
    stopsPlain (before ++ (run ++ c :: rest)) (size before) (size (before ++ run)) =
      some (isBreak c || run.getLast?.any isSpace && c = '#') := by
  obtain ⟨b, hb, hhead⟩ := byte?_head c rest
  have hbyte : byte? (before ++ (run ++ c :: rest)) (size (before ++ run)) = some b := by
    rw [← List.append_assoc, byte?_at, hb]
  have hsign : b = '#' ↔ c = '#' := head_eq_iff (by decide) hhead
  rw [← inAscii_isBreak.head hhead, stopsPlain, hbyte]
  split
  · rename_i heq
    cases heq
  · rename_i heq
    cases heq
    rw [startsComment_eq, hsign.1 rfl]
    simp [isBreak]
  · rename_i d hne heq
    cases heq
    have hc : c ≠ '#' := fun hc => hne (by rw [hsign.2 hc])
    simp [hc]

theorem seek_plain :
    seek (size (before ++ cs)) (stopsPlain (before ++ cs) (size before)) (size before) =
      some (size (before ++ plainRun false cs)) := by
  have hrun := @seek_run (stopsPlain (before ++ cs) (size before)) (before ++ cs) before
    (fun passed => plainRun (passed.getLast?.any isSpace))
    (fun passed c _ => isBreak c || passed.getLast?.any isSpace && c = '#') (fun _ => rfl)
    ?_ ?_ ?_ ?_ [] cs rfl
  · simpa using hrun
  · intro passed c rest
    rw [plainRun, List.getLast?_concat]
    rfl
  · rw [stopsPlain, byte?_end]
    rfl
  · intro passed c rest htext
    rw [htext]
    exact stopsPlain_eq before passed c rest
  · exact fun _ _ _ _ _ _ _ => stopsPlain_wide

theorem stopsKey_wide {text : List Char} {start offset : Nat} {b : Char}
    (hb : byte? text offset = some b) (hwide : Wide b) :
    stopsKey text start offset = some false := by
  rw [stopsKey]
  split
  · rename_i heq
    cases hb.symm.trans heq
    exact absurd hwide (by decide)
  · exact stopsPlain_wide hb hwide

theorem stopsKey_eq (c : Char) (rest : List Char) :
    stopsKey (before ++ (run ++ c :: rest)) (size before) (size (before ++ run)) =
      some (isBreak c || run.getLast?.any isSpace && c = '#' ||
        c = ':' && Yaml.endsIndicator rest) := by
  have hbyte :
      byte? (before ++ (run ++ c :: rest)) (size (before ++ run)) = some ':' ↔ c = ':' := by
    rw [← List.append_assoc, byte?_at, byte_eq_some_iff (by decide)]
    simp
  rw [stopsKey]
  split
  · rename_i heq
    obtain rfl := hbyte.1 heq
    have hends := endsIndicator_eq (before ++ run ++ [':']) rest
    have hafter : size (before ++ run ++ [':']) = size (before ++ run) + 1 := by
      rw [size_append (before ++ run)]
      rfl
    have htext : before ++ run ++ [':'] ++ rest = before ++ (run ++ ':' :: rest) := by simp
    rw [hafter, htext] at hends
    rw [hends]
    simp [isBreak]
  · rename_i hne
    rw [stopsPlain_eq]
    have hc : c ≠ ':' := fun hc => hne (hbyte.2 hc)
    simp [hc]

theorem seek_key :
    seek (size (before ++ cs)) (stopsKey (before ++ cs) (size before)) (size before) =
      some (size (before ++ keyRun false cs)) := by
  have hrun := @seek_run (stopsKey (before ++ cs) (size before)) (before ++ cs) before
    (fun passed => keyRun (passed.getLast?.any isSpace))
    (fun passed c rest => isBreak c || passed.getLast?.any isSpace && c = '#' ||
      c = ':' && Yaml.endsIndicator rest) (fun _ => rfl)
    ?_ ?_ ?_ ?_ [] cs rfl
  · simpa using hrun
  · intro passed c rest
    rw [keyRun, List.getLast?_concat]
    rfl
  · rw [stopsKey, stopsPlain, byte?_end]
    rfl
  · intro passed c rest htext
    rw [htext]
    exact stopsKey_eq before passed c rest
  · exact fun _ _ _ _ _ _ _ => stopsKey_wide

theorem plainEnd_eq :
    plainEnd (before ++ cs) (size before) = some (size (before ++ (plainScalar cs).1)) := by
  obtain ⟨rest, hrest⟩ := plainRun_starts false cs
  have hslice := slice?_append before (plainRun false cs) rest
  rw [hrest] at hslice
  rw [plainEnd, seek_plain]
  simp only [Option.bind_eq_bind, Option.bind_some, hslice]
  rw [size_append]
  rfl

end

/-! ### Quoted texts -/

section
variable {text : List Char} {quote : Char} (hquote : ¬ Wide quote)
include hquote

theorem quotedFrom_wide {offset : Nat} {b : Char} (hb : byte? text offset = some b)
    (hwide : Wide b) : quotedFrom text quote offset = quotedFrom text quote (offset + 1) := by
  have hne : ∀ a : Char, ¬ Wide a → b ≠ a := fun a ha heq => ha (heq ▸ hwide)
  rw [quotedFrom, hb]
  simp only [inAscii_isBreak b hwide, hne '\\' (by decide), hne '\'' (by decide), hne quote hquote,
    decide_false, Bool.false_and, if_false, Bool.false_eq_true]

theorem quotedFrom_inside {front rest : List Char} {c : Char} {offset : Nat}
    (htext : text = front ++ c :: rest) (hpos : 0 < offset) (hoffset : offset ≤ c.utf8Size) :
    quotedFrom text quote (size front + offset) =
      quotedFrom text quote (size (front ++ [c])) := by
  rw [size_append, size_cons, size_nil, Nat.add_zero]
  induction hoffset using Nat.decreasingInduction with
  | self => rfl
  | of_succ offset hlt ih =>
      rw [← ih (Nat.succ_pos offset)]
      have hsize : c.utf8Size ≠ 1 := by omega
      obtain ⟨b, hb, hwide⟩ := byte?_wide hsize rest hlt
      rw [← byte?_append front, ← htext] at hb
      exact quotedFrom_wide hquote hb hwide

theorem quotedFrom_cons {front rest : List Char} {c : Char} (htext : text = front ++ c :: rest) :
    quotedFrom text quote (size front) =
      if isBreak c then none
      else if c = '\\' && quote = '"' then quotedFrom text quote (size (front ++ [c]) + 1)
      else if c = '\'' && quote = '\'' && rest.head? = some '\'' then
        quotedFrom text quote (size (front ++ [c]) + 1)
      else if c = quote then some (size (front ++ [c]))
      else quotedFrom text quote (size (front ++ [c])) := by
  by_cases hsize : c.utf8Size = 1
  · have hnext : size (front ++ [c]) = size front + 1 := by
      rw [size_append, size_cons, hsize, size_nil]
    have hsecond : byte? text (size front + 1) = some '\'' ↔ rest.head? = some '\'' := by
      rw [← hnext, htext, List.append_cons, byte?_at, byte_eq_some_iff (by decide)]
    have hbyte : byte? text (size front) = some c := by rw [htext, byte?_at, byte?_ascii hsize]
    rw [quotedFrom, hbyte, hnext]
    simp only [hsecond]
  · have hwide := wide_of_size hsize
    have hne : ∀ a : Char, ¬ Wide a → c ≠ a := fun a ha heq => ha (heq ▸ hwide)
    obtain ⟨b, hb, hbwide⟩ := byte?_wide hsize rest c.utf8Size_pos
    rw [← byte?_append front, ← htext, Nat.add_zero] at hb
    rw [quotedFrom_wide hquote hb hbwide, quotedFrom_inside hquote htext Nat.one_pos c.utf8Size_pos]
    simp only [inAscii_isBreak c hwide, hne '\\' (by decide), hne '\'' (by decide),
      hne quote hquote, decide_false, Bool.false_and, if_false, Bool.false_eq_true]

theorem quotedFrom_second {front rest : List Char} {c d : Char}
    (htext : text = front ++ c :: d :: rest) :
    quotedFrom text quote (size (front ++ [c]) + 1) =
      quotedFrom text quote (size (front ++ [c] ++ [d])) :=
  quotedFrom_inside hquote (by rw [htext, List.append_cons]) Nat.one_pos d.utf8Size_pos

theorem quotedFrom_eq (front cs : List Char) :
    quotedFrom (front ++ cs) quote (size front) =
      (quotedRun quote cs).map fun parts => size (front ++ parts.1) := by
  fun_induction quotedRun quote cs generalizing front with
  | case1 =>
      rw [quotedFrom, List.append_nil, byte?_end]
      rfl
  | case2 c rest hbreak =>
      rw [quotedFrom_cons hquote rfl, if_pos hbreak]
      rfl
  | case3 c hbreak hescape =>
      have hend : byte? (front ++ [c]) (size (front ++ [c]) + 1) = none := by
        have hbyte := byte?_append (front ++ [c]) [] 1
        rwa [List.append_nil] at hbyte
      rw [quotedFrom_cons hquote rfl, if_neg hbreak, if_pos hescape, quotedFrom, hend]
      rfl
  | case4 c hbreak hescape d rest ih =>
      have hrest := ih (front ++ [c] ++ [d])
      rw [← List.append_cons, ← List.append_cons] at hrest
      rw [quotedFrom_cons hquote rfl, if_neg hbreak, if_pos hescape, quotedFrom_second hquote rfl,
        hrest, Option.map_map]
      simp [Function.comp_def]
  | case5 rest hsingle hbreak hescape ih =>
      have hrest := ih (front ++ [quote] ++ ['\''])
      rw [← List.append_cons, ← List.append_cons] at hrest
      rw [quotedFrom_cons hquote rfl, if_neg hbreak, if_neg hescape, if_pos (by simp [hsingle]),
        quotedFrom_second hquote rfl, hrest, Option.map_map]
      simp [Function.comp_def]
  | case6 rest hdouble hbreak hescape =>
      rw [quotedFrom_cons hquote rfl, if_neg hbreak, if_neg hescape, if_neg (by simp [hdouble]),
        if_pos rfl]
      rfl
  | case7 rest hother hbreak hescape =>
      have hhead : rest.head? ≠ some '\'' := by
        cases rest with
        | nil => simp
        | cons d rest => exact fun hd => hother rest (by rw [Option.some.inj hd])
      rw [quotedFrom_cons hquote rfl, if_neg hbreak, if_neg hescape, if_neg (by simp [hhead]),
        if_pos rfl]
      rfl
  | case8 c rest hbreak hescape hclose ih =>
      have hrest := ih (front ++ [c])
      rw [← List.append_cons] at hrest
      have hsingle : ¬ (c = '\'' && quote = '\'' && rest.head? = some '\'') = true := by
        simp only [Bool.and_eq_true, decide_eq_true_eq]
        rintro ⟨⟨rfl, rfl⟩, _⟩
        exact hclose rfl
      rw [quotedFrom_cons hquote rfl, if_neg hbreak, if_neg hescape, if_neg hsingle, if_neg hclose,
        hrest, Option.map_map]
      simp [Function.comp_def]

end

section
variable {text front : List Char} {p : Place} (h : p.Cuts text front)
include h

theorem retraces_quotedEnd (hquote : Yaml.startsQuote p.ahead = true) :
    Retraces ParseError.offset text
      (fun x y => x = y.2.position.offset ∧ y.2.Cuts text (front ++ y.1))
      (quotedEnd text p.position.offset) (quotedText p) := by
  cases hahead : p.ahead with
  | nil =>
      rw [hahead] at hquote
      cases hquote
  | cons quote rest =>
      rw [hahead] at hquote
      have hsign := (inAscii_eq (by decide)).or (inAscii_eq (by decide)) |>.size hquote
      have hascii : ¬ Wide quote := not_wide_of_size hsign
      have hbyte : Text.byte? text p.position.offset = some quote := by
        rw [h.byte?, hahead, byte?_ascii hsign]
      have hinner : p.position.offset + 1 = size (front ++ [quote]) := by
        rw [h.offset, size_append, size_cons, hsign, size_nil]
      have hrun : quotedFrom text quote (p.position.offset + 1) =
          (quotedRun quote rest).map fun parts => size (front ++ [quote] ++ parts.1) := by
        rw [hinner, ← quotedFrom_eq hascii, ← List.append_cons, ← hahead, ← h.text]
      rw [quotedEnd, lift_bind hbyte, hrun, quotedText, hahead]
      cases hparts : quotedRun quote rest with
      | none =>
          simp only [hparts]
          exact h.expected .closingQuote
      | some parts =>
          simp only [hparts, Option.map_some]
          have hnext : (p.move (quote :: parts.1) parts.2).Cuts text (front ++ quote :: parts.1) :=
            h.move (by rw [hahead, List.cons_append, quotedRun_append hparts])
          refine .ok ⟨?_, hnext⟩
          simp only [hnext.offset, List.append_assoc, List.singleton_append]

theorem retraces_quoted (hquote : Yaml.startsQuote p.ahead = true) :
    Retraces ParseError.offset text
      (fun x y => x = (y.1, y.2.position.offset) ∧ y.2.Cuts text (front ++ y.1))
      (do
        let stop ← quotedEnd text p.position.offset
        return (← slice? text p.position.offset stop, stop))
      (quotedText p) := by
  rw [← bind_pure (quotedText p)]
  refine (retraces_quotedEnd h hquote).bind ?_
  rintro _ ⟨taken, q⟩ ⟨rfl, hq⟩ -
  rw [lift_bind (h.slice? hq)]
  exact .ok ⟨rfl, hq⟩

theorem retraces_key :
    Retraces ParseError.offset text
      (fun x y => x = (y.1, y.2.position.offset) ∧ y.2.Cuts text (front ++ y.1))
      (key text p.position.offset) (Yaml.key p) := by
  have hstarts : startsQuote text p.position.offset = Yaml.startsQuote p.ahead := by
    rw [h.text, h.offset, startsQuote_eq]
  rw [key, Yaml.key, hstarts]
  split_ifs with hquote
  · exact retraces_quoted h hquote
  · obtain ⟨run, left, hrun, hleft⟩ :
        ∃ run left, keyRun false p.ahead = run ∧ p.ahead.drop run.length = left :=
      ⟨_, _, rfl, rfl⟩
    have hstart : run <+: p.ahead := hrun ▸ keyRun_starts false p.ahead
    have hnext : (p.move run left).Cuts text (front ++ run) :=
      h.move (hleft ▸ append_drop_of_starts hstart)
    have hraw := h.move (append_drop_of_starts ((trimSpaces_starts run).trans hstart))
    have hstop : seek (size text) (stopsKey text p.position.offset) p.position.offset =
        some (p.move run left).position.offset := by
      rw [hnext.offset, h.text, h.offset, seek_key, hrun]
    have hcolon : (Text.byte? text (p.move run left).position.offset != some ':') =
        (left.head? != some ':') := hnext.byte_bne (by decide)
    simp only [hrun, hleft]
    rw [lift_bind hstop, hcolon]
    split_ifs with hhead hempty
    · exact hnext.expected .colon
    · rw [lift_bind (h.slice? hnext), if_pos hempty]
      exact h.expected .key
    · rw [lift_bind (h.slice? hnext), if_neg hempty]
      refine .ok ⟨Prod.ext rfl ?_, hraw⟩
      rw [hraw.offset, h.offset, size_append]

theorem spaces_of_cuts :
    skipSpaces text p.position.offset =
        some (p.move (spaces p.ahead).1 (spaces p.ahead).2).position.offset ∧
      (p.move (spaces p.ahead).1 (spaces p.ahead).2).Cuts text (front ++ (spaces p.ahead).1) := by
  have hnext := h.move (spaces_append p.ahead)
  refine ⟨?_, hnext⟩
  rw [hnext.offset, h.text, h.offset, skipSpaces_eq]

theorem retraces_lineEnds :
    Retraces ParseError.offset text (fun _ _ => True) (lineEnds text p.position.offset)
      (Yaml.lineEnds p) := by
  obtain ⟨hstop, hnext⟩ := spaces_of_cuts h
  obtain ⟨blanks, left, hspaces⟩ : ∃ blanks left, spaces p.ahead = (blanks, left) := ⟨_, _, rfl⟩
  rw [hspaces] at hstop hnext
  have hbreak : (Text.byte? text (p.move blanks left).position.offset).all isBreak =
      left.head?.all isBreak := by
    rw [hnext.byte?]
    exact all_byte inAscii_isBreak left
  have hcomment : Text.byte? text (p.move blanks left).position.offset = some '#' ↔
      left.head? = some '#' := hnext.byte_iff (by decide)
  have hpassed : p.position.offset < (p.move blanks left).position.offset ↔
      (!blanks.isEmpty) = true := by
    rw [hnext.offset, h.offset, size_append]
    cases blanks with
    | nil => simp
    | cons d blanks =>
        have hsize := d.utf8Size_pos
        rw [size_cons]
        simp only [List.isEmpty_cons, Bool.not_false, iff_true]
        omega
  rw [lineEnds, lift_bind hstop, hbreak, Yaml.lineEnds]
  simp only [hspaces, hcomment, hpassed, Bool.decide_eq_true]
  cases left with
  | nil => exact .ok trivial
  | cons c rest =>
      simp only [List.head?_cons, Option.all_some, Option.some.injEq]
      split_ifs
      · exact .ok trivial
      · exact hnext.expected .endOfLine

theorem unsupported?_of_cuts (inValue : Bool) :
    unsupported? text inValue p.position.offset = some (Yaml.unsupported? inValue p.ahead) := by
  rw [h.text, h.offset, unsupported?_eq]

theorem retraces_scalarText :
    Retraces ParseError.offset text
      (fun x y => x = (y.1, y.2.position.offset) ∧ y.2.Cuts text (front ++ y.1))
      (scalarText text p.position.offset) (Yaml.scalarText p) := by
  have hstarts : startsQuote text p.position.offset = Yaml.startsQuote p.ahead := by
    rw [h.text, h.offset, startsQuote_eq]
  rw [scalarText, lift_bind (unsupported?_of_cuts h true), Yaml.scalarText, hstarts]
  cases Yaml.unsupported? true p.ahead with
  | some construct => exact h.unsupported construct
  | none =>
      simp only
      split_ifs with hquote
      · refine (retraces_quotedEnd h hquote).bind ?_
        rintro _ ⟨taken, q⟩ ⟨rfl, hq⟩ -
        refine (retraces_lineEnds hq).bind fun _ _ _ _ => ?_
        rw [lift_bind (h.slice? hq)]
        exact .ok ⟨rfl, hq⟩
      · have hnext := h.move (plainScalar_append p.ahead)
        have hstop : plainEnd text p.position.offset =
            some (p.move (plainScalar p.ahead).1 (plainScalar p.ahead).2).position.offset := by
          rw [hnext.offset, h.text, h.offset, plainEnd_eq]
        rw [lift_bind hstop, lift_bind (h.slice? hnext)]
        exact .ok ⟨rfl, hnext⟩

end

/-! ### Entries -/

/-- A result and the offset to which the scan of the bytes came, beside a result and a place. -/
def Reached {α : Type} (text : List Char) (x : α × Nat) (y : α × Place) : Prop :=
  x = (y.1, y.2.position.offset) ∧ ∃ front, y.2.Cuts text front

variable {text front : List Char} {p : Place}

section
variable {length : Nat} {entries : Nat → Nat → Checked ParseError (List Element × Nat)}
  {entries' : Nat → Place → Except ParseError (List Element × Place)}
  (hentries : ∀ {column front} {p : Place}, p.Cuts text front → p.ahead.length < length →
    Retraces ParseError.offset text (Reached text) (entries column p.position.offset)
      (entries' column p))
include hentries

theorem retraces_value (column : Nat) (h : p.Cuts text front) (hlength : p.ahead.length < length) :
    Retraces ParseError.offset text (Reached text) (value text entries column p.position.offset)
      (Yaml.value entries' column p) := by
  obtain ⟨hstop, hnext⟩ := spaces_of_cuts h
  have hbelow : ((byte? text (p.move (spaces p.ahead).1 (spaces p.ahead).2).position.offset).all
      fun c => isBreak c || c = '#') = valueIsBelow (spaces p.ahead).2 := by
    rw [hnext.byte?, all_byte (inAscii_isBreak.or (inAscii_eq (by decide)))]
    show (spaces p.ahead).2.head?.all _ = _
    cases (spaces p.ahead).2 <;> rfl
  rw [value, lift_bind hstop, hbelow, Yaml.value]
  simp only
  split_ifs with hhere
  · refine (retraces_skip h).bind ?_
    rintro _ ⟨gap, next⟩ ⟨rfl, hskipped⟩ -
    rw [lift_bind (h.slice? hskipped), hskipped.atEnd]
    simp only
    split_ifs with hdeeper
    · refine (hentries h hlength).bind ?_
      rintro _ ⟨children, q⟩ ⟨rfl, hq⟩ -
      exact .ok ⟨rfl, hq⟩
    · exact .ok ⟨rfl, _, h⟩
  · rw [lift_bind (h.slice? hnext)]
    refine (retraces_scalarText hnext).bind ?_
    rintro _ ⟨raw, q⟩ ⟨rfl, hq⟩ -
    exact .ok ⟨rfl, _, hq⟩

theorem retraces_entry (column : Nat) (lead : List Char) (h : p.Cuts text front)
    (hlength : p.ahead.length ≤ length) :
    Retraces ParseError.offset text (Reached text)
      (entry text entries column lead p.position.offset)
      (Yaml.entry entries' column lead p) := by
  rw [entry, lift_bind (unsupported?_of_cuts h false), Yaml.entry]
  cases Yaml.unsupported? false p.ahead with
  | some construct => exact h.unsupported construct
  | none =>
      refine (retraces_key h).bind ?_
      rintro _ ⟨raw, q⟩ ⟨rfl, hq⟩ -
      obtain ⟨hstop, hcolon⟩ := spaces_of_cuts hq
      obtain ⟨gap, left, hspaces⟩ : ∃ gap left, spaces q.ahead = (gap, left) := ⟨_, _, rfl⟩
      simp only [hspaces] at hq hstop hcolon ⊢
      rw [lift_bind hstop, hcolon.byte_bne (by decide)]
      split_ifs with hhead
      · split
        · rename_i rest hahead
          rw [hahead] at hhead
          cases hhead
        · exact hcolon.expected .colon
      · obtain ⟨rest, rfl⟩ : ∃ rest, left = ':' :: rest := by
          rw [Bool.not_eq_true, bne_eq_false_iff_eq] at hhead
          exact List.head?_eq_some_iff.1 hhead
        have hvalue : ((q.move gap (':' :: rest)).move [':'] rest).Cuts text
            (front ++ raw ++ gap ++ [':']) := hcolon.move rfl
        have hbehind : (q.move gap (':' :: rest)).position.offset + 1 =
            ((q.move gap (':' :: rest)).move [':'] rest).position.offset := by
          rw [hvalue.offset, hcolon.offset, size_append _ [':']]
          rfl
        have hshorter : rest.length < length := by
          have hparts := congrArg List.length (h.text.symm.trans hvalue.text)
          simp only [Place.move, List.length_append, List.length_singleton] at hparts
          omega
        rw [lift_bind (hq.slice? hcolon), hbehind]
        refine (retraces_value hentries column hvalue hshorter).bind ?_
        rintro _ ⟨node, r⟩ ⟨rfl, hr⟩ -
        exact .ok ⟨rfl, hr⟩

end

theorem retraces_entriesWithin {steps limit column : Nat} (h : p.Cuts text front)
    (hsteps : p.ahead.length < steps) (hlimit : p.ahead.length ≤ limit) :
    Retraces ParseError.offset text (Reached text)
      (entriesWithin text steps column p.position.offset) (Yaml.entriesWithin limit column p) := by
  induction limit generalizing steps column front p with
  | zero =>
      obtain ⟨steps, rfl⟩ : ∃ n, steps = n + 1 := ⟨steps - 1, by omega⟩
      have hnil : p.ahead = [] := List.length_eq_zero_iff.1 (Nat.le_zero.1 hlimit)
      have hskip : Yaml.entriesWithin 0 column p = p.skip >>= fun _ => .ok ([], p) := by
        rw [skip_of_nil hnil]
        rfl
      rw [entriesWithin, hskip]
      refine (retraces_skip h).bind ?_
      rintro _ ⟨lead, next⟩ ⟨rfl, hnext⟩ hread
      rw [skip_of_nil hnil] at hread
      cases hread
      simp only [h.atEnd, Place.atEnd, hnil]
      exact .ok ⟨rfl, _, h⟩
  | succ limit ih =>
      obtain ⟨steps, rfl⟩ : ∃ n, steps = n + 1 := ⟨steps - 1, by omega⟩
      rw [entriesWithin, Yaml.entriesWithin]
      refine (retraces_skip h).bind ?_
      rintro _ ⟨lead, next⟩ ⟨rfl, hnext⟩ hskip
      simp only [hnext.atEnd]
      split_ifs
      · exact .ok ⟨rfl, _, h⟩
      · exact hnext.indentation
      · rw [lift_bind (h.slice? hnext)]
        have hread : ∀ {column front} {q : Place}, q.Cuts text front →
            q.ahead.length < p.ahead.length →
              Retraces ParseError.offset text (Reached text)
                (entriesWithin text steps column q.position.offset)
                (Yaml.entriesWithin limit column q) :=
          fun hq hlength => ih hq (by omega) (by omega)
        have hlead : next.ahead.length ≤ p.ahead.length := by
          rw [(passes_skip hskip).ahead_length]
          exact Nat.le_add_left ..
        refine (retraces_entry hread column lead hnext hlead).bind ?_
        rintro _ ⟨first, r⟩ ⟨rfl, _, hr⟩ hfirst
        have hshorter : r.ahead.length < p.ahead.length := by
          obtain ⟨raw, gap, node, q, -, hkey, hvalue⟩ := keyAt_of_entry hfirst
          have hkey := ahead_lt_of_key hskip hkey
          have hvalue := (passes_value covers_entriesWithin hvalue).ahead_length
          omega
        refine (hread hr hshorter).bind ?_
        rintro _ ⟨others, s⟩ ⟨rfl, hs⟩ -
        exact .ok ⟨rfl, hs⟩

/-! ### Documents -/

theorem cuts_start (text : List Char) : (Place.start text).Cuts text [] :=
  ⟨rfl, rfl⟩

theorem retraces_marker :
    Retraces ParseError.offset text (Reached text) (marker text)
      (Yaml.marker (Place.start text)) := by
  have h := cuts_start text
  rw [marker, Yaml.marker]
  refine (retraces_skip h).bind ?_
  rintro _ ⟨lead, next⟩ ⟨rfl, hnext⟩ -
  have hmarker : startsMarker text "---" next.position.offset =
      some (Yaml.startsMarker "---" next.ahead) := by
    rw [hnext.text, hnext.offset, startsMarker_eq]
  simp only [bne, Bool.not_eq_true', Bool.and_eq_true]
  cases hcolumn : next.column == 0 with
  | false => exact .ok ⟨rfl, _, h⟩
  | true =>
      rw [if_neg (by simp), lift_bind hmarker]
      cases hsign : Yaml.startsMarker "---" next.ahead with
      | false => exact .ok ⟨rfl, _, h⟩
      | true =>
          have hdashes : ['-', '-', '-'] ++ next.ahead.drop 3 = next.ahead := by
            simp only [Yaml.startsMarker, Bool.and_eq_true] at hsign
            exact append_drop_of_starts (List.isPrefixOf_iff_prefix.1 hsign.1)
          have hbehind := hnext.move hdashes
          have hstart : next.position.offset + 3 =
              (next.move ['-', '-', '-'] (next.ahead.drop 3)).position.offset := by
            rw [hbehind.offset, hnext.offset, size_append _ ['-', '-', '-']]
            rfl
          have hlead : slice? text 0 next.position.offset = some lead := h.slice? hnext
          rw [if_neg (by simp), lift_bind hlead, hstart, if_pos ⟨rfl, rfl⟩]
          refine (retraces_skip hbehind).bind ?_
          rintro _ ⟨gap, after⟩ ⟨rfl, hafter⟩ -
          simp only [hafter.atEnd]
          cases hend : after.atEnd with
          | true => exact .ok ⟨rfl, _, hbehind⟩
          | false =>
              rw [if_neg (by simp), lift_bind (hbehind.slice? hafter)]
              cases hline : gap.contains '\n' with
              | true => exact .ok ⟨rfl, _, hbehind⟩
              | false => exact hafter.unsupported .contentAfterMarker

theorem retraces_rootMapping (h : p.Cuts text front) :
    Retraces ParseError.offset text (Reached text) (rootMapping text p.position.offset)
      (Yaml.rootMapping p) := by
  rw [rootMapping, Yaml.rootMapping]
  refine (retraces_skip h).bind ?_
  rintro _ ⟨lead, next⟩ ⟨rfl, hnext⟩ -
  simp only [hnext.atEnd]
  split_ifs
  · exact .ok ⟨rfl, _, h⟩
  · have hsteps : p.ahead.length < text.length + 1 := by
      rw [h.text, List.length_append]
      omega
    refine (retraces_entriesWithin h hsteps le_rfl).bind ?_
    rintro _ ⟨children, q⟩ ⟨rfl, hq⟩ -
    exact .ok ⟨rfl, hq⟩

theorem retraces_documentEnd (h : p.Cuts text front) :
    Retraces ParseError.offset text Eq (documentEnd text p.position.offset)
      (Yaml.documentEnd p) := by
  rw [documentEnd, Yaml.documentEnd]
  refine (retraces_skip h).bind ?_
  rintro _ ⟨lead, next⟩ ⟨rfl, hnext⟩ -
  simp only [hnext.atEnd]
  cases hend : next.atEnd with
  | true =>
      rw [if_neg (by simp), if_pos rfl, lift_bind (h.slice? hnext)]
      exact .ok rfl
  | false =>
      rw [if_pos (by simp), if_neg (by simp)]
      exact hnext.indentation

theorem retraces_parseDocument (source : String) :
    Retraces ParseError.offset source.toList Eq (parseDocument source)
      (Yaml.parseDocument source) := by
  rw [parseDocument, Yaml.parseDocument]
  refine retraces_marker.bind ?_
  rintro _ ⟨mark, p⟩ ⟨rfl, _, hp⟩ -
  refine (retraces_rootMapping hp).bind ?_
  rintro _ ⟨mapping, q⟩ ⟨rfl, _, hq⟩ -
  refine (retraces_documentEnd hq).bind ?_
  rintro _ last rfl -
  exact .ok rfl

end Codemod.Yaml.Indexed
