import Codemod.Proofs.Pattern.PatternTexts

/-!
Type arguments in method patterns. A parameter means the same with type arguments as without them, as long
as there is no comma among the arguments: parameters are told apart by their commas before anything is
known of brackets, so a comma between two arguments ends the parameter.
-/

namespace Codemod.Pattern

open Codemod.Text

/-! ### The length of parameter lists -/

/-- How many parameters there are at least. -/
def required (patterns : List ParameterPattern) : Nat :=
  patterns.countP (· != .anyRun)

theorem required_cons (pattern : ParameterPattern) (patterns : List ParameterPattern) :
    required (pattern :: patterns) =
      required patterns + if pattern != .anyRun then 1 else 0 :=
  List.countP_cons

theorem required_le {patterns : List ParameterPattern} {types : List Java.TypeRef}
    (h : ReplacesAll patterns types) : required patterns ≤ types.length := by
  induction patterns generalizing types with
  | nil => exact Nat.zero_le _
  | cons pattern patterns ih =>
      obtain ⟨front, rest, rfl, hfront, hrest⟩ := replacesAll_cons.1 h
      have hstep := ih hrest
      rw [required_cons, List.length_append]
      by_cases hrun : pattern = .anyRun
      · simp only [hrun, bne_self_eq_false, Bool.false_eq_true, if_false]
        omega
      · obtain ⟨type, rfl, -⟩ := (accepts_iff hrun).1 hfront
        simp only [List.length_singleton]
        split <;> omega

theorem exists_shortest (patterns : List ParameterPattern) :
    ∃ types, ReplacesAll patterns types ∧ types.length = required patterns := by
  induction patterns with
  | nil => exact ⟨[], replacesAll_nil.2 rfl, rfl⟩
  | cons pattern patterns ih =>
      obtain ⟨types, hreplaces, hlength⟩ := ih
      cases pattern with
      | anyRun => exact ⟨types, replacesAll_cons.2 ⟨[], types, rfl, .run [], hreplaces⟩, hlength⟩
      | anyOne =>
          exact ⟨.unknown :: types, replacesAll_cons.2 ⟨_, types, rfl, .one .unknown, hreplaces⟩,
            by rw [required_cons, List.length_cons, hlength]; rfl⟩
      | type element dimensions =>
          have hnames : Names element (String.ofList (element.filter (· != '*'))).toList := by
            rw [String.toList_ofList]
            exact .inl (Glob.without element)
          exact ⟨_ :: types, replacesAll_cons.2 ⟨_, types, rfl, .named hnames dimensions, hreplaces⟩,
            by rw [required_cons, List.length_cons, hlength]; rfl⟩

theorem exists_selected (pattern : MethodPattern) :
    ∃ method, pattern.selects method = true ∧ method.parameters.length = required pattern.parameters := by
  obtain ⟨types, hreplaces, hlength⟩ := exists_shortest pattern.parameters
  refine ⟨⟨.ofList (pattern.owner.filter (· != '*')), .ofList (pattern.name.filter (· != '*')), types,
    .unknown, false, false⟩, MethodPattern.selects_iff.2 ⟨?_, ?_, hreplaces⟩, hlength⟩
  · simpa using Glob.without pattern.owner
  · simpa using Glob.without pattern.name

theorem required_of_parameters {parts : List (List Char)} {patterns : List ParameterPattern}
    (h : Parameters parts patterns) :
    required patterns = parts.countP (trimmed · != ['.', '.']) := by
  induction h with
  | nil => rfl
  | @cons blanks text blanks' ellipsis pattern parts patterns hblanks htext hblanks' _ _ ih =>
      have hrun : (trimmed (blanks ++ text ++ blanks') != ['.', '.']) = (pattern != .anyRun) := by
        rw [htext.bare.trimmed_append hblanks hblanks', Bool.eq_iff_iff, bne_iff_ne, bne_iff_ne,
          ne_eq, ne_eq, htext.anyRun_iff]
      rw [required_cons, List.countP_cons, ih, hrun]

/-! ### Places in a parameter list -/

/-- The text of a pattern around one of its parameters: what stands in front of the parameters, the parts
before and after this one, the blanks around it and those behind the pattern. -/
structure ParameterPlace where
  head : List Char
  before : List (List Char)
  lead : List Char
  trail : List Char
  after : List (List Char)
  ending : List Char
  head_open : '(' ∉ head
  before_comma : ∀ part ∈ before, ',' ∉ part
  lead_blank : Blanks lead
  trail_blank : Blanks trail
  after_comma : ∀ part ∈ after, ',' ∉ part
  ending_blank : Blanks ending

namespace ParameterPlace

variable (place : ParameterPlace) {text text' : List Char}

/-- The parameter list with a text for the parameter. -/
def list (text : List Char) : List Char :=
  join ',' (place.before ++ (place.lead ++ text ++ place.trail) :: place.after)

/-- The pattern with a text for the parameter. -/
def fill (text : List Char) : String :=
  .ofList (place.head ++ '(' :: (place.list text ++ ')' :: place.ending))

/-- The parts that reading finds in the pattern with a text for the parameter. -/
def parts (text : List Char) : List (List Char) :=
  place.before ++ (splitOn ',' (place.lead ++ text ++ place.trail) ++ place.after)

theorem splitOn_list : splitOn ',' (place.list text) = place.parts text := by
  rw [list, splitOn_join (by simp), List.flatMap_append, List.flatMap_cons,
    flatMap_splitOn place.before_comma, flatMap_splitOn place.after_comma, parts]

theorem list_not_blank (hbare : Bare text) : ¬ Blanks (place.list text) := by
  intro hblank
  obtain ⟨c, cs, rfl⟩ := List.exists_cons_of_ne_nil hbare.nonempty
  have hpart : place.lead ++ c :: cs ++ place.trail ∈
      place.before ++ (place.lead ++ c :: cs ++ place.trail) :: place.after := by simp
  have hmem : c ∈ place.list (c :: cs) := mem_join hpart (by simp)
  exact hblank.not_mem (hbare.left c rfl) hmem

theorem parse_fill_iff (hbare : Bare text) {pattern : MethodPattern} :
    MethodPattern.parse (place.fill text) = .ok pattern ↔
      ∃ owner name patterns, ownerAndName (trimmed place.head) = .ok (owner, name) ∧
        Parameters (place.parts text) patterns ∧
        pattern = ⟨place.fill text, owner, name, patterns⟩ := by
  have htext : (place.fill text).toList =
      place.head ++ '(' :: (place.list text ++ ')' :: place.ending) := String.toList_ofList
  rw [MethodPattern.parse_iff, MethodPattern.parse?_append htext place.head_open place.ending_blank,
    parameterList_of_not_blank (place.list_not_blank hbare), splitOn_list]
  constructor
  · intro h
    obtain ⟨⟨owner, name⟩, hglobs, h⟩ := bind_eq_ok.1 h
    obtain ⟨patterns, hpatterns, h⟩ := bind_eq_ok.1 h
    exact ⟨owner, name, patterns, hglobs, parameterPatterns_iff.1 hpatterns, (Except.ok.inj h).symm⟩
  · rintro ⟨owner, name, patterns, hglobs, hpatterns, rfl⟩
    rw [hglobs, parameterPatterns_iff.2 hpatterns]
    rfl

theorem exists_parse_fill_iff (hbare : Bare text) :
    (∃ pattern, MethodPattern.parse (place.fill text) = .ok pattern) ↔
      (∃ globs, ownerAndName (trimmed place.head) = .ok globs) ∧
        ∃ patterns, Parameters (place.parts text) patterns := by
  simp only [place.parse_fill_iff hbare]
  constructor
  · rintro ⟨-, owner, name, patterns, hglobs, hpatterns, -⟩
    exact ⟨⟨_, hglobs⟩, patterns, hpatterns⟩
  · rintro ⟨⟨⟨owner, name⟩, hglobs⟩, patterns, hpatterns⟩
    exact ⟨_, owner, name, patterns, hglobs, hpatterns, rfl⟩

theorem parts_of_not_mem (h : ',' ∉ text) :
    place.parts text = place.before ++ (place.lead ++ text ++ place.trail) :: place.after := by
  have hpart : ',' ∉ place.lead ++ text ++ place.trail := by
    simpa using ⟨place.lead_blank.not_mem (by decide), h, place.trail_blank.not_mem (by decide)⟩
  rw [parts, splitOn_of_not_mem hpart, List.singleton_append]

end ParameterPlace

/-! ### Type arguments -/

/-- The name of a raw type. -/
structure IsTypeName (name : List Char) : Prop extends IsElement name where
  noArguments : '<' ∉ name
  noEnd : '>' ∉ name
  noComma : ',' ∉ name
  notAny : name ≠ ['*']

/-- Both texts are patterns or neither is, and the patterns select the same methods. -/
structure Agree (text text' : String) : Prop where
  accepted : (∃ pattern, MethodPattern.parse text = .ok pattern) ↔
    ∃ pattern, MethodPattern.parse text' = .ok pattern
  selected : ∀ {pattern pattern'}, MethodPattern.parse text = .ok pattern →
    MethodPattern.parse text' = .ok pattern' → ∀ method, pattern.selects method = pattern'.selects method

section
variable {name behind arguments : List Char} {ellipsis : Bool} {n : Nat}

theorem Brackets.comma_not_mem {cs : List Char} (h : Brackets n cs) : ',' ∉ cs := by
  induction h with
  | none => exact List.not_mem_nil
  | pair _ hblanks ih => simpa using ⟨ih, hblanks.not_mem (by decide)⟩

theorem Dimensions.comma_not_mem (h : Dimensions ellipsis n behind) : ',' ∉ behind := by
  cases h with
  | brackets hcs => exact hcs.comma_not_mem
  | ellipsis hcs hblanks => simpa using ⟨hcs.comma_not_mem, hblanks.not_mem (by decide)⟩

theorem IsTypeName.raw (hname : IsTypeName name) (hbehind : Dimensions ellipsis n behind) :
    ParameterText (name ++ behind) ellipsis (.type name n) := by
  refine .type hname.toIsElement (.plain hname.noArguments hname.noEnd) hbehind fun hone => ?_
  obtain ⟨c, cs, rfl⟩ := List.exists_cons_of_ne_nil hname.nonempty
  obtain ⟨rfl, hrest⟩ := List.cons.inj hone
  exact hname.notAny (by rw [(List.append_eq_nil_iff.1 hrest).1])

theorem IsTypeName.withArguments (hname : IsTypeName name) (hbehind : Dimensions ellipsis n behind)
    (arguments : List Char) :
    ParameterText (name ++ '<' :: arguments ++ '>' :: behind) ellipsis (.type name n) := by
  have hspells := Spells.arguments hname.noArguments blanks_nil arguments
  rw [List.append_nil] at hspells
  have htext := ParameterText.type hname.toIsElement hspells hbehind fun hone => by
    have hmem : '<' ∈ ['*'] := by
      rw [← hone]
      simp
    simp at hmem
  simpa using htext

theorem IsTypeName.comma_not_mem (hname : IsTypeName name) (hbehind : Dimensions ellipsis n behind) :
    ',' ∉ name ++ behind := by
  simpa using ⟨hname.noComma, hbehind.comma_not_mem⟩

/-! ### With and without type arguments -/

variable (place : ParameterPlace)

theorem ParameterPlace.splitOn_arguments (hname : ',' ∉ name) (hbehind : ',' ∉ behind)
    (hcomma : ',' ∈ arguments) :
    ∃ first parts last,
      splitOn ',' (place.lead ++ (name ++ '<' :: arguments ++ '>' :: behind) ++ place.trail) =
        (place.lead ++ name ++ '<' :: first) :: (parts ++ [last ++ '>' :: behind ++ place.trail]) := by
  obtain ⟨first, rest, rfl, hfirst⟩ := List.eq_append_cons_of_mem hcomma
  have hleft : ',' ∉ place.lead ++ name ++ '<' :: first := by
    simpa using ⟨place.lead_blank.not_mem (by decide), hname, hfirst⟩
  have hright : ',' ∉ '>' :: behind ++ place.trail := by
    simpa using ⟨hbehind, place.trail_blank.not_mem (by decide)⟩
  obtain ⟨parts, last, -, hparts⟩ := splitOn_append_right rest hright
  have hsplit := splitOn_separator ',' (place.lead ++ name ++ '<' :: first)
    (rest ++ ('>' :: behind ++ place.trail))
  rw [splitOn_of_not_mem hleft, hparts] at hsplit
  exact ⟨first, parts, last, by simpa using hsplit⟩

theorem agree_of_text {text text' : List Char} {pattern : ParameterPattern} (hcomma : ',' ∉ text)
    (hcomma' : ',' ∉ text') (htext : ParameterText text ellipsis pattern)
    (htext' : ParameterText text' ellipsis pattern) : Agree (place.fill text) (place.fill text') := by
  have hread : parameterPatterns (place.parts text) = parameterPatterns (place.parts text') := by
    rw [place.parts_of_not_mem hcomma, place.parts_of_not_mem hcomma']
    refine parameterPatterns_congr (List.rel_append (List.forall₂_same.2 fun _ _ _ => rfl)
      (.cons (fun isLast => ?_) (List.forall₂_same.2 fun _ _ _ => rfl)))
    rw [htext.bare.trimmed_append place.lead_blank place.trail_blank,
      htext'.bare.trimmed_append place.lead_blank place.trail_blank, parameterPattern_of_text htext,
      parameterPattern_of_text htext']
  have hparameters : ∀ patterns, Parameters (place.parts text) patterns ↔
      Parameters (place.parts text') patterns := fun patterns => by
    rw [← parameterPatterns_iff, hread, parameterPatterns_iff]
  refine ⟨?_, ?_⟩
  · rw [place.exists_parse_fill_iff htext.bare, place.exists_parse_fill_iff htext'.bare]
    simp only [hparameters]
  · intro pattern pattern' hparse hparse' method
    obtain ⟨owner, name, patterns, hglobs, hpatterns, rfl⟩ := (place.parse_fill_iff htext.bare).1 hparse
    obtain ⟨owner', name', patterns', hglobs', hpatterns', rfl⟩ :=
      (place.parse_fill_iff htext'.bare).1 hparse'
    cases hglobs.symm.trans hglobs'
    rw [← hparameters] at hpatterns'
    cases (parameterPatterns_iff.2 hpatterns).symm.trans (parameterPatterns_iff.2 hpatterns')
    rfl

theorem exists_parameters_of_arguments (hname : IsTypeName name) (hbehind : Dimensions ellipsis n behind)
    (hcomma : ',' ∈ arguments)
    (h : ∃ patterns, Parameters (place.parts (name ++ '<' :: arguments ++ '>' :: behind)) patterns) :
    ∃ patterns, Parameters (place.parts (name ++ behind)) patterns := by
  obtain ⟨first, parts, last, hparts⟩ :=
    place.splitOn_arguments hname.noComma hbehind.comma_not_mem hcomma
  have hlist : place.parts (name ++ '<' :: arguments ++ '>' :: behind) =
      (place.before ++ (place.lead ++ name ++ '<' :: first) :: parts) ++
        (last ++ '>' :: behind ++ place.trail) :: place.after := by
    rw [ParameterPlace.parts, hparts]
    simp
  rw [hlist, exists_parameters_append (List.cons_ne_nil _ _), exists_parameters_cons] at h
  obtain ⟨hfront, ⟨ellipsis', pattern, hend, hlast⟩, hafter⟩ := h
  rw [place.parts_of_not_mem (hname.comma_not_mem hbehind),
    exists_parameters_append (List.cons_ne_nil _ _), exists_parameters_cons,
    (hname.raw hbehind).bare.trimmed_append place.lead_blank place.trail_blank]
  refine ⟨fun part hpart => hfront part (List.mem_append_left _ hpart),
    ⟨ellipsis, .type name n, hname.raw hbehind, ?_⟩, hafter⟩
  rintro rfl
  cases hbehind with
  | @ellipsis n cs blanks hcs hblanks =>
      have hdot : isBlank '.' = false := by decide
      have hdots : Bare ['.', '.', '.'] := .of_forall (by simp) (by simp [hdot])
      have htrimmed := hdots.trimmed_append_left (last ++ '>' :: cs ++ blanks) place.trail_blank
      refine hlast (hend.ellipsis_iff.2 ⟨trimLeft (last ++ '>' :: cs ++ blanks), ?_⟩)
      rw [← htrimmed]
      simp

theorem trimmed_ne_dots {part : List Char} {c : Char} (hc : c ∈ part) (hblank : isBlank c = false)
    (hdot : c ≠ '.') : (trimmed part != ['.', '.']) = true := by
  have hmem := mem_trimmed hblank hc
  rw [bne_iff_ne]
  intro hdots
  simp [hdots, hdot] at hmem

theorem required_lt_of_arguments (hname : IsTypeName name) (hbehind : Dimensions ellipsis n behind)
    (hcomma : ',' ∈ arguments) {patterns patterns' : List ParameterPattern}
    (h : Parameters (place.parts (name ++ behind)) patterns)
    (h' : Parameters (place.parts (name ++ '<' :: arguments ++ '>' :: behind)) patterns') :
    required patterns < required patterns' := by
  obtain ⟨first, parts, last, hparts⟩ :=
    place.splitOn_arguments hname.noComma hbehind.comma_not_mem hcomma
  have hfirst : (trimmed (place.lead ++ name ++ '<' :: first) != ['.', '.']) = true :=
    trimmed_ne_dots (c := '<') (by simp) (by decide) (by decide)
  have hlast : (trimmed (last ++ '>' :: behind ++ place.trail) != ['.', '.']) = true :=
    trimmed_ne_dots (c := '>') (by simp) (by decide) (by decide)
  rw [required_of_parameters h, required_of_parameters h',
    place.parts_of_not_mem (hname.comma_not_mem hbehind), ParameterPlace.parts, hparts]
  simp only [List.countP_append, List.countP_cons, List.countP_nil, hfirst, hlast, if_true]
  split <;> omega

/-- Type arguments of a parameter are transparent, wherever it stands and whatever dimensions are behind it,
exactly if there is no comma among them or the pattern is refused without them already. -/
theorem agree_arguments_iff (hname : IsTypeName name) (hbehind : Dimensions ellipsis n behind)
    (arguments : List Char) :
    Agree (place.fill (name ++ behind)) (place.fill (name ++ '<' :: arguments ++ '>' :: behind)) ↔
      ((∃ pattern, MethodPattern.parse (place.fill (name ++ behind)) = .ok pattern) →
        ',' ∉ arguments) := by
  have htext := hname.raw hbehind
  have htext' := hname.withArguments hbehind arguments
  constructor
  · rintro hagree ⟨pattern, hparse⟩ hcomma
    obtain ⟨pattern', hparse'⟩ := hagree.accepted.1 ⟨pattern, hparse⟩
    have hselected := hagree.selected hparse hparse'
    obtain ⟨owner, member, patterns, -, hpatterns, hpattern⟩ :=
      (place.parse_fill_iff htext.bare).1 hparse
    obtain ⟨owner', member', patterns', -, hpatterns', hpattern'⟩ :=
      (place.parse_fill_iff htext'.bare).1 hparse'
    -- A method with as few parameters as the first pattern needs is too short for the second.
    obtain ⟨method, hselects, hlength⟩ := exists_selected pattern
    rw [hselected method] at hselects
    have hle := required_le (MethodPattern.selects_iff.1 hselects).2.2
    have hlt := required_lt_of_arguments place hname hbehind hcomma hpatterns hpatterns'
    rw [hlength, hpattern, hpattern'] at hle
    exact Nat.not_le_of_lt hlt hle
  · intro hcommas
    by_cases hcomma : ',' ∈ arguments
    · have hnone : ¬ ∃ pattern, MethodPattern.parse (place.fill (name ++ behind)) = .ok pattern :=
        fun haccepted => hcommas haccepted hcomma
      refine ⟨iff_of_false hnone fun haccepted => hnone ?_, fun hparse => absurd ⟨_, hparse⟩ hnone⟩
      obtain ⟨hglobs, hpatterns⟩ := (place.exists_parse_fill_iff htext'.bare).1 haccepted
      exact (place.exists_parse_fill_iff htext.bare).2
        ⟨hglobs, exists_parameters_of_arguments place hname hbehind hcomma hpatterns⟩
    · have hnone : ',' ∉ name ++ '<' :: arguments ++ '>' :: behind := by
        simpa using ⟨hname.noComma, hcomma, hbehind.comma_not_mem⟩
      exact agree_of_text place (hname.comma_not_mem hbehind) hnone htext htext'

/-- Nested arguments are transparent, two arguments are not. -/
theorem agree_arguments_iff_nested :
    Agree "a.B m(int, F...)" "a.B m(int, F<G<H[]>>...)" ∧
      ¬ Agree "a.B m(int, F...)" "a.B m(int, F<G,H>...)" := by
  let place : ParameterPlace :=
    { head := ['a', '.', 'B', ' ', 'm'], before := [['i', 'n', 't']], lead := [' '], trail := [],
      after := [], ending := [], head_open := by decide, before_comma := by decide,
      lead_blank := List.forall_mem_singleton.2 (by decide), trail_blank := blanks_nil, after_comma := by decide,
      ending_blank := blanks_nil }
  have hname : IsTypeName ['F'] :=
    { nonempty := by decide, noBlank := List.forall_mem_singleton.2 (by decide),
      segments := by decide, noOpening := by decide, noClosing := by decide, noArguments := by decide,
      noEnd := by decide, noComma := by decide, notAny := by decide }
  have hbehind : Dimensions true 1 ['.', '.', '.'] := .ellipsis .none blanks_nil
  have haccepted : ∃ pattern, MethodPattern.parse (place.fill (['F'] ++ ['.', '.', '.'])) = .ok pattern :=
    ⟨⟨"a.B m(int, F...)", ['a', '.', 'B'], ['m'], [.type ['i', 'n', 't'] 0, .type ['F'] 1]⟩,
      by decide⟩
  have hnested := agree_arguments_iff place hname hbehind ['G', '<', 'H', '[', ']', '>']
  have htwo := agree_arguments_iff place hname hbehind ['G', ',', 'H']
  exact ⟨hnested.2 fun _ => by decide, fun h => htwo.1 h haccepted (by decide)⟩

end

end Codemod.Pattern
