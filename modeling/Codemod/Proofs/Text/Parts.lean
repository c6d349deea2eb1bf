import Codemod.Text.Blank
import Codemod.Text.Split
import Mathlib.Data.List.Basic
import Mathlib.Data.List.TakeWhile

/-!
Texts between blanks and texts between separators. Trimming takes the blanks from around a text that
neither begins nor ends with one, and cutting a list of parts at the separators between them gives the
parts, if none of them holds a separator.
-/

namespace Codemod.Text

/-! ### Blanks -/

/-- The characters are all blanks. -/
def Blanks (cs : List Char) : Prop :=
  ∀ c ∈ cs, isBlank c = true

/-- The text does not begin or end with a blank, and there is some. -/
structure Bare (cs : List Char) : Prop where
  nonempty : cs ≠ []
  left : ∀ c, cs.head? = some c → isBlank c = false
  right : ∀ c, cs.getLast? = some c → isBlank c = false

section
variable {blanks cs : List Char}

theorem blanks_nil : Blanks [] :=
  fun _ h => absurd h List.not_mem_nil

theorem Blanks.append {blanks' : List Char} (h : Blanks blanks) (h' : Blanks blanks') :
    Blanks (blanks ++ blanks') := fun c hc =>
  (List.mem_append.1 hc).elim (h c) (h' c)

theorem Blanks.not_mem (h : Blanks blanks) {c : Char} (hc : isBlank c = false) : c ∉ blanks :=
  fun hmem => by simp [h c hmem] at hc

theorem Bare.of_forall (hsome : cs ≠ []) (h : ∀ c ∈ cs, isBlank c = false) : Bare cs :=
  ⟨hsome, fun c hc => h c (List.mem_of_head? hc), fun c hc => h c (List.mem_of_getLast? hc)⟩

theorem Bare.append {cs' : List Char} (h : Bare cs) (mid : List Char) (h' : Bare cs') :
    Bare (cs ++ mid ++ cs') := by
  refine ⟨by simp [h.nonempty], fun c hc => h.left c ?_, fun c hc => h'.right c ?_⟩
  · rwa [List.append_assoc, List.head?_append_of_ne_nil _ h.nonempty] at hc
  · rwa [List.getLast?_append_of_ne_nil _ h'.nonempty] at hc

theorem trimLeft_append (h : Blanks blanks) (cs : List Char) : trimLeft (blanks ++ cs) = trimLeft cs :=
  List.dropWhile_append_of_pos h

theorem trimLeft_self (h : ∀ c, cs.head? = some c → isBlank c = false) : trimLeft cs = cs := by
  cases cs with
  | nil => rfl
  | cons c cs => exact List.dropWhile_cons_of_neg (by simp [h c rfl])

theorem trimRight_eq (cs : List Char) : trimRight cs = (trimLeft cs.reverse).reverse :=
  rfl

theorem trimRight_append (cs : List Char) (h : Blanks blanks) : trimRight (cs ++ blanks) = trimRight cs := by
  have hreverse : Blanks blanks.reverse := fun c hc => h c (List.mem_reverse.1 hc)
  rw [trimRight_eq, trimRight_eq, List.reverse_append, trimLeft_append hreverse]

theorem trimRight_self (h : ∀ c, cs.getLast? = some c → isBlank c = false) : trimRight cs = cs := by
  rw [trimRight_eq, trimLeft_self (by simpa using h), List.reverse_reverse]

theorem exists_trimLeft (cs : List Char) :
    ∃ blanks, cs = blanks ++ trimLeft cs ∧ Blanks blanks ∧
      ∀ c, (trimLeft cs).head? = some c → isBlank c = false := by
  refine ⟨cs.takeWhile isBlank, (List.takeWhile_append_dropWhile).symm,
    fun c hc => List.mem_takeWhile_imp hc, fun c hc => ?_⟩
  have hhead := List.head?_dropWhile_not isBlank cs
  rwa [show (cs.dropWhile isBlank).head? = some c from hc] at hhead

theorem exists_trimRight (cs : List Char) :
    ∃ blanks, cs = trimRight cs ++ blanks ∧ Blanks blanks ∧
      ∀ c, (trimRight cs).getLast? = some c → isBlank c = false := by
  obtain ⟨blanks, hcs, hblanks, hhead⟩ := exists_trimLeft cs.reverse
  refine ⟨blanks.reverse, ?_, fun c hc => hblanks c (List.mem_reverse.1 hc), fun c hc => ?_⟩
  · rw [trimRight_eq, ← List.reverse_append, ← hcs, List.reverse_reverse]
  · rw [trimRight_eq, List.getLast?_reverse] at hc
    exact hhead c hc

theorem trimmed_append (h : Blanks blanks) {blanks' : List Char} (cs : List Char)
    (h' : Blanks blanks') : trimmed (blanks ++ cs ++ blanks') = trimmed cs := by
  rw [trimmed, List.append_assoc, trimLeft_append h, trimmed]
  obtain ⟨front, hcs, hfront, hhead⟩ := exists_trimLeft cs
  cases hleft : trimLeft cs with
  | nil =>
      rw [hleft, List.append_nil] at hcs
      have hall : trimLeft (cs ++ blanks') = [] := by
        have hblank : Blanks (cs ++ blanks') := hcs ▸ hfront.append h'
        simpa [trimLeft] using trimLeft_append hblank []
      rw [hall]
  | cons c rest =>
      rw [hleft] at hcs hhead
      rw [hcs, List.append_assoc, trimLeft_append hfront, trimLeft_self (by simpa using hhead),
        trimRight_append _ h']

theorem trimmed_self (h : Bare cs) : trimmed cs = cs := by
  rw [trimmed, trimLeft_self h.left, trimRight_self h.right]

theorem Bare.trimmed_append (h : Bare cs) (hblanks : Blanks blanks) {blanks' : List Char}
    (hblanks' : Blanks blanks') : trimmed (blanks ++ cs ++ blanks') = cs := by
  rw [Text.trimmed_append hblanks _ hblanks', trimmed_self h]

/-- In front of a text that does not begin or end with a blank, blanks are taken from the left only. -/
theorem Bare.trimmed_append_left (h : Bare cs) (front : List Char) (hblanks : Blanks blanks) :
    trimmed (front ++ cs ++ blanks) = trimLeft front ++ cs := by
  obtain ⟨lead, hfront, hlead, hhead⟩ := exists_trimLeft front
  have hbare : Bare (trimLeft front ++ cs) := by
    refine ⟨by simp [h.nonempty], fun c hc => ?_, fun c hc => h.right c ?_⟩
    · cases hleft : trimLeft front with
      | nil =>
          rw [hleft] at hc
          exact h.left c hc
      | cons d rest =>
          rw [hleft] at hc hhead
          exact hhead c hc
    · rwa [List.getLast?_append_of_ne_nil _ h.nonempty] at hc
  conv_lhs => rw [hfront]
  rw [← hbare.trimmed_append hlead hblanks]
  simp only [List.append_assoc]

/-- A text is blank, or it is what trimming leaves of it between blanks. -/
theorem exists_trimmed (cs : List Char) :
    ∃ blanks blanks', cs = blanks ++ trimmed cs ++ blanks' ∧ Blanks blanks ∧ Blanks blanks' ∧
      (trimmed cs = [] ∨ Bare (trimmed cs)) := by
  obtain ⟨blanks, hcs, hblanks, hhead⟩ := exists_trimLeft cs
  obtain ⟨blanks', hleft, hblanks', hlast⟩ := exists_trimRight (trimLeft cs)
  refine ⟨blanks, blanks', ?_, hblanks, hblanks', ?_⟩
  · rw [trimmed, List.append_assoc, ← hleft, ← hcs]
  · rcases eq_or_ne (trimmed cs) [] with hnil | hsome
    · exact .inl hnil
    · refine .inr ⟨hsome, fun c hc => hhead c ?_, hlast⟩
      rw [hleft, List.head?_append, show (trimRight (trimLeft cs)).head? = some c from hc,
        Option.some_or]

theorem mem_trimmed {c : Char} (hc : isBlank c = false) (h : c ∈ cs) : c ∈ trimmed cs := by
  obtain ⟨blanks, blanks', hcs, hblanks, hblanks', -⟩ := exists_trimmed cs
  rw [hcs, List.mem_append, List.mem_append] at h
  exact (h.resolve_right (hblanks'.not_mem hc)).resolve_left (hblanks.not_mem hc)

theorem blanks_of_trimmed (h : trimmed cs = []) : Blanks cs := by
  obtain ⟨blanks, blanks', hcs, hblanks, hblanks', -⟩ := exists_trimmed cs
  rw [hcs, h, List.append_nil]
  exact hblanks.append hblanks'

theorem trimmed_blanks (h : Blanks cs) : trimmed cs = [] := by
  simpa [trimmed, trimLeft, trimRight] using trimmed_append h [] blanks_nil

end

/-! ### Separators -/

section
variable {separator : Char} {cs : List Char}

theorem takeWhile_append {p : Char → Bool} {front back : List Char} (hfront : ∀ c ∈ front, p c = true)
    (hback : ∀ c, back.head? = some c → p c = false) : (front ++ back).takeWhile p = front := by
  rw [List.takeWhile_append_of_pos hfront]
  cases back with
  | nil => simp
  | cons c back => simp [hback c rfl]

theorem splitOn_of_not_mem (h : separator ∉ cs) : splitOn separator cs = [cs] := by
  induction cs with
  | nil => rfl
  | cons c cs ih =>
      rw [List.mem_cons, not_or] at h
      rw [splitOn, if_neg (Ne.symm h.1), ih h.2]

theorem splitOn_separator (separator : Char) (front back : List Char) :
    splitOn separator (front ++ separator :: back) =
      splitOn separator front ++ splitOn separator back := by
  induction front with
  | nil => simp [splitOn]
  | cons c front ih =>
      rw [List.cons_append, splitOn, splitOn, ih]
      split_ifs
      · rfl
      · obtain ⟨part, parts, hparts⟩ :=
          List.exists_cons_of_ne_nil (splitOn_ne_nil separator front)
        rw [hparts]
        rfl

/-- Cutting what separators join cuts the parts. -/
theorem splitOn_join {parts : List (List Char)} (hsome : parts ≠ []) :
    splitOn separator (join separator parts) = parts.flatMap (splitOn separator) := by
  induction parts with
  | nil => contradiction
  | cons part parts ih =>
      cases parts with
      | nil => simp [join]
      | cons next parts =>
          rw [join.eq_3 _ _ _ (by simp), splitOn_separator, ih (List.cons_ne_nil _ _)]
          rfl

theorem flatMap_splitOn {parts : List (List Char)} (h : ∀ part ∈ parts, separator ∉ part) :
    parts.flatMap (splitOn separator) = parts := by
  induction parts with
  | nil => rfl
  | cons part parts ih =>
      obtain ⟨hpart, hparts⟩ := List.forall_mem_cons.1 h
      rw [List.flatMap_cons, splitOn_of_not_mem hpart, ih hparts]
      rfl

/-- The library's texts with a separator between them. -/
theorem intercalate_eq_join (separator : Char) (parts : List (List Char)) :
    [separator].intercalate parts = join separator parts := by
  induction parts with
  | nil => rfl
  | cons part parts ih =>
      cases parts with
      | nil => simp [join]
      | cons next parts =>
          rw [join.eq_3 _ _ _ (List.cons_ne_nil _ _), ← ih, List.intercalate_cons_cons,
            List.append_assoc]
          rfl

theorem mem_join {parts : List (List Char)} {part : List Char} (hpart : part ∈ parts) {c : Char}
    (hc : c ∈ part) : c ∈ join separator parts := by
  induction parts with
  | nil => cases hpart
  | cons first parts ih =>
      cases parts with
      | nil => rwa [join, ← List.mem_singleton.1 hpart]
      | cons next parts =>
          rw [join.eq_3 _ _ _ (by simp), List.mem_append, List.mem_cons]
          rcases List.mem_cons.1 hpart with rfl | hrest
          · exact .inl hc
          · exact .inr (.inr (ih hrest))

theorem mem_of_mem_join {parts : List (List Char)} {c : Char} (h : c ∈ join separator parts) :
    c = separator ∨ ∃ part ∈ parts, c ∈ part := by
  induction parts with
  | nil => cases h
  | cons part parts ih =>
      cases parts with
      | nil => exact .inr ⟨part, List.mem_cons_self, h⟩
      | cons next parts =>
          rw [join.eq_3 _ _ _ (List.cons_ne_nil _ _), List.mem_append, List.mem_cons] at h
          rcases h with h | rfl | h
          · exact .inr ⟨part, List.mem_cons_self, h⟩
          · exact .inl rfl
          · refine (ih h).imp_right ?_
            rintro ⟨other, hother, hc⟩
            exact ⟨other, List.mem_cons_of_mem _ hother, hc⟩

theorem not_mem_of_splitOn {part : List Char} (h : part ∈ splitOn separator cs) : separator ∉ part := by
  induction cs generalizing part with
  | nil =>
      rw [List.mem_singleton.1 h]
      exact List.not_mem_nil
  | cons c cs ih =>
      rw [splitOn] at h
      split_ifs at h with hc
      · rcases List.mem_cons.1 h with rfl | h
        · exact List.not_mem_nil
        · exact ih h
      · obtain ⟨first, parts, hparts⟩ := List.exists_cons_of_ne_nil (splitOn_ne_nil separator cs)
        rw [hparts] at h ih
        rcases List.mem_cons.1 h with rfl | h
        · rw [List.mem_cons, not_or]
          exact ⟨Ne.symm hc, ih List.mem_cons_self⟩
        · exact ih (List.mem_cons_of_mem _ h)

theorem splitOn_append_left {front : List Char} (h : separator ∉ front) (cs : List Char) :
    ∃ part parts, splitOn separator cs = part :: parts ∧
      splitOn separator (front ++ cs) = (front ++ part) :: parts := by
  obtain ⟨part, parts, hparts⟩ := List.exists_cons_of_ne_nil (splitOn_ne_nil separator cs)
  refine ⟨part, parts, hparts, ?_⟩
  induction front with
  | nil => exact hparts
  | cons c front ih =>
      rw [List.mem_cons, not_or] at h
      rw [List.cons_append, splitOn, if_neg (Ne.symm h.1), ih h.2]
      rfl

theorem splitOn_append_right {back : List Char} (cs : List Char) (h : separator ∉ back) :
    ∃ parts part, splitOn separator cs = parts ++ [part] ∧
      splitOn separator (cs ++ back) = parts ++ [part ++ back] := by
  induction cs with
  | nil => exact ⟨[], [], rfl, splitOn_of_not_mem h⟩
  | cons c cs ih =>
      obtain ⟨parts, part, hparts, hback⟩ := ih
      rw [List.cons_append, splitOn, splitOn, hparts, hback]
      split_ifs
      · exact ⟨[] :: parts, part, rfl, rfl⟩
      · cases parts with
        | nil => exact ⟨[], c :: part, rfl, rfl⟩
        | cons first parts => exact ⟨(c :: first) :: parts, part, rfl, rfl⟩

theorem splitOn_trimmed (hseparator : isBlank separator = false) (cs : List Char) :
    (splitOn separator (trimmed cs)).map trimmed = (splitOn separator cs).map trimmed := by
  obtain ⟨blanks, blanks', hcs, hblanks, hblanks', -⟩ := exists_trimmed cs
  obtain ⟨parts, part, hparts, hright⟩ :=
    splitOn_append_right (trimmed cs) (hblanks'.not_mem hseparator)
  obtain ⟨first, rest, hfirst, hleft⟩ :=
    splitOn_append_left (hblanks.not_mem hseparator) (trimmed cs ++ blanks')
  have hblankLeft : ∀ part, trimmed (blanks ++ part) = trimmed part := fun part => by
    simpa using trimmed_append hblanks part blanks_nil
  have hblankRight : ∀ part, trimmed (part ++ blanks') = trimmed part := fun part => by
    simpa using trimmed_append blanks_nil part hblanks'
  have hwhole : splitOn separator cs = (blanks ++ first) :: rest := by
    rw [← hleft, ← List.append_assoc, ← hcs]
  rw [hwhole, hparts, List.map_cons, hblankLeft, ← List.map_cons, ← hfirst, hright, List.map_append,
    List.map_append, List.map_singleton, List.map_singleton, hblankRight]

theorem splitFirst_append {front : List Char} (h : separator ∉ front) (back : List Char) :
    splitFirst separator (front ++ separator :: back) = some (front, back) := by
  induction front with
  | nil => simp [splitFirst]
  | cons c front ih =>
      rw [List.mem_cons, not_or] at h
      rw [List.cons_append, splitFirst, if_neg (Ne.symm h.1), ih h.2]
      rfl

theorem splitFirst_eq_some {front back : List Char} (h : splitFirst separator cs = some (front, back)) :
    cs = front ++ separator :: back ∧ separator ∉ front := by
  induction cs generalizing front with
  | nil => cases h
  | cons c cs ih =>
      rw [splitFirst] at h
      split_ifs at h with hc
      · cases h
        exact ⟨by rw [hc]; rfl, List.not_mem_nil⟩
      · obtain ⟨⟨front', back'⟩, hrest, hparts⟩ := Option.map_eq_some_iff.1 h
        cases hparts
        obtain ⟨rfl, hfront⟩ := ih hrest
        exact ⟨rfl, by simpa using ⟨Ne.symm hc, hfront⟩⟩

end

theorem splitLast_eq_none {separator : Char} {cs : List Char} (h : separator ∉ cs) :
    splitLast separator cs = none := by
  induction cs with
  | nil => rfl
  | cons c rest ih =>
      obtain ⟨hc, hrest⟩ := not_or.1 (mt List.mem_cons.2 h)
      rw [splitLast, ih hrest, if_neg fun heq => hc heq.symm]

theorem splitLast_append {separator : Char} (front : List Char) {behind : List Char}
    (h : separator ∉ behind) :
    splitLast separator (front ++ separator :: behind) = some (front, behind) := by
  induction front with
  | nil => rw [List.nil_append, splitLast, splitLast_eq_none h, if_pos rfl]
  | cons c front ih => rw [List.cons_append, splitLast, ih]

end Codemod.Text
