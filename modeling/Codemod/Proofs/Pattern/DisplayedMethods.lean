import Codemod.Java.Type
import Codemod.Proofs.Pattern.PatternTexts
import Codemod.Proofs.Recipe.Identifiers

/-!
Methods written as patterns. A method is displayed with its class, its name and its parameters, of which
a variable one ends in an ellipsis. The main statement says that this text is a pattern, and that the
pattern selects the method, and others only that differ from it in what the text does not tell: a
parameter of a class without a package may as well be the class of that name in the implicit package.
-/

namespace Codemod.Java

open Codemod.Text Scan

/-! ### Dotted names -/

instance (text : String) : Decidable (IsWord text) :=
  decidable_of_iff (text.toList.head?.any startsWord && text.toList.tail.all continuesWord) (by
    rw [IsWord]
    cases text.toList <;> simp)

/-- The name is made of words with dots between them. -/
def IsDotted (name : String) : Prop :=
  ∀ part ∈ splitOn '.' name.toList, IsWord (String.ofList part)

instance (name : String) : Decidable (IsDotted name) :=
  inferInstanceAs (Decidable (∀ part ∈ splitOn '.' name.toList, IsWord (String.ofList part)))

theorem isDotted_of_primitives : ∀ name ∈ primitives, IsDotted name := by
  decide

theorem IsWord.continues {word : String} (h : IsWord word) : ∀ c ∈ word.toList, continuesWord c = true := by
  obtain ⟨c, cs, hword, hstart, hcontinue⟩ := h
  rw [hword]
  exact List.forall_mem_cons.2 ⟨continuesWord_of_startsWord hstart, hcontinue⟩

theorem IsWord.nonempty {word : String} (h : IsWord word) : word.toList ≠ [] := by
  obtain ⟨c, cs, hword, -, -⟩ := h
  simp [hword]

theorem IsWord.not_mem {word : String} (h : IsWord word) {c : Char} (hc : continuesWord c = false) :
    c ∉ word.toList := by
  intro hmem
  cases (h.continues c hmem).symm.trans hc

section
variable {name : String} (h : IsDotted name)
include h

theorem IsDotted.chars : ∀ c ∈ name.toList, c = '.' ∨ continuesWord c = true := by
  intro c hc
  rw [← join_splitOn '.' name.toList] at hc
  refine (mem_of_mem_join hc).imp_right ?_
  rintro ⟨part, hpart, hc⟩
  exact (h part hpart).continues c (by rwa [String.toList_ofList])

theorem IsDotted.not_mem {c : Char} (hdot : c ≠ '.') (hc : continuesWord c = false) :
    c ∉ name.toList := by
  intro hmem
  cases ((h.chars c hmem).resolve_left hdot).symm.trans hc

theorem IsDotted.noBlank : ∀ c ∈ name.toList, isBlank c = false := by
  intro c hc
  rcases h.chars c hc with rfl | hword
  · decide
  · exact not_isBlank_of_continuesWord hword

theorem IsDotted.parts : [] ∉ splitOn '.' name.toList := fun hnil =>
  (h [] hnil).nonempty rfl

end

end Codemod.Java

namespace Codemod.Pattern

open Codemod.Java Codemod.Text Scan

theorem segments_of_splitOn {cs : List Char} (h : [] ∉ splitOn '.' cs) :
    cs ≠ [] ∧ ¬ ['.', '.'] <:+: cs ∧ cs.head? ≠ some '.' ∧ cs.getLast? ≠ some '.' := by
  refine ⟨?_, ?_, fun hhead => ?_, fun hlast => ?_⟩
  · rintro rfl
    simp [splitOn] at h
  · rintro ⟨front, behind, rfl⟩
    rw [List.append_assoc, List.cons_append, splitOn_separator] at h
    simp [splitOn] at h
  · obtain ⟨rest, rfl⟩ := List.head?_eq_some_iff.1 hhead
    simp [splitOn] at h
  · obtain ⟨front, rfl⟩ := List.getLast?_eq_some_iff.1 hlast
    rw [splitOn_separator] at h
    simp [splitOn] at h

section
variable {name : String}

theorem isOwner_of_dotted (h : IsDotted name) : IsOwner name.toList := by
  obtain ⟨hsome, hsegments, hfirst, hlast⟩ := segments_of_splitOn h.parts
  exact ⟨hsome, h.noBlank, hsegments, hfirst, hlast⟩

theorem isElement_of_dotted (h : IsDotted name) : IsElement name.toList := by
  obtain ⟨hsome, hsegments, -, -⟩ := segments_of_splitOn h.parts
  exact ⟨hsome, h.noBlank, hsegments, h.not_mem (by decide) (by decide),
    h.not_mem (by decide) (by decide)⟩

theorem isName_of_word (h : IsWord name) : IsName name.toList :=
  ⟨h.nonempty, fun c hc => not_isBlank_of_continuesWord (h.continues c hc), h.not_mem (by decide)⟩

theorem spells_of_dotted (h : IsDotted name) : Spells name.toList name.toList :=
  .plain (h.not_mem (by decide) (by decide)) (h.not_mem (by decide) (by decide))

theorem append_ne_asterisk (h : IsDotted name) (behind : List Char) : name.toList ++ behind ≠ ['*'] := by
  intro hone
  obtain ⟨c, cs, hname⟩ := List.exists_cons_of_ne_nil (isElement_of_dotted h).nonempty
  rw [hname] at hone
  refine h.not_mem (c := '*') (by decide) (by decide) ?_
  rw [hname, (List.cons.inj hone).1]
  exact List.mem_cons_self

end

/-! ### Displayed types -/

/-- The name of the innermost element of a type. -/
def elementName? (type : TypeRef) : Option String :=
  match type.arrayParts.1 with
  | .primitive name | .named name => some name
  | .array _ | .unknown => none

/-- A number of pairs of brackets. -/
def brackets : Nat → List Char
  | 0 => []
  | n + 1 => brackets n ++ ['[', ']']

theorem brackets_form (n : Nat) : Brackets n (brackets n) := by
  induction n with
  | zero => exact .none
  | succ n ih =>
      have hpair := Brackets.pair ih blanks_nil
      rwa [List.append_nil] at hpair

theorem mem_brackets {n : Nat} {c : Char} (h : c ∈ brackets n) : c = '[' ∨ c = ']' := by
  induction n with
  | zero => cases h
  | succ n ih =>
      rcases List.mem_append.1 h with h | h
      · exact ih h
      · simpa using h

theorem toList_display {type : TypeRef} {name : String} (h : elementName? type = some name) :
    type.display.toList = name.toList ++ brackets type.arrayParts.2 := by
  induction type with
  | primitive _ =>
      cases h
      exact (List.append_nil _).symm
  | named _ =>
      cases h
      exact (List.append_nil _).symm
  | array element ih =>
      rw [TypeRef.display, String.toList_append, ih h, List.append_assoc]
      rfl
  | unknown => cases h

/-- The innermost element of the type has a dotted name. -/
def WellNamed (type : TypeRef) : Prop :=
  ∃ name, elementName? type = some name ∧ IsDotted name

/-- The pattern is the one for this type. -/
def PatternFor (type : TypeRef) (pattern : ParameterPattern) : Prop :=
  ∃ name, elementName? type = some name ∧ IsDotted name ∧
    pattern = .type name.toList type.arrayParts.2

section
variable {type : TypeRef} {name : String} (helement : elementName? type = some name)
  (hname : IsDotted name)
include helement hname

theorem parameterText_display :
    ParameterText type.display.toList false (.type name.toList type.arrayParts.2) := by
  rw [toList_display helement]
  exact .type (isElement_of_dotted hname) (spells_of_dotted hname) (.brackets (brackets_form _))
    (append_ne_asterisk hname _)

theorem parameterText_ellipsis :
    ParameterText (type.display ++ "...").toList true
      (.type name.toList (type.arrayParts.2 + 1)) := by
  have hbehind := Dimensions.ellipsis (brackets_form type.arrayParts.2) blanks_nil
  rw [List.append_nil] at hbehind
  rw [String.toList_append, toList_display helement, List.append_assoc]
  exact .type (isElement_of_dotted hname) (spells_of_dotted hname) hbehind (append_ne_asterisk hname _)

theorem not_mem_display {c : Char} (hc : continuesWord c = false) (hdot : c ≠ '.') (hopen : c ≠ '[')
    (hclose : c ≠ ']') : c ∉ type.display.toList := by
  rw [toList_display helement, List.mem_append, not_or]
  exact ⟨hname.not_mem hdot hc, fun h => (mem_brackets h).elim hopen hclose⟩

end

theorem parameters_cons {text : String} {ellipsis : Bool} {pattern : ParameterPattern}
    {texts : List String} {patterns : List ParameterPattern}
    (htext : ParameterText text.toList ellipsis pattern) (hlast : ellipsis = true → texts = [])
    (h : Parameters (texts.map String.toList) patterns) :
    Parameters ((text :: texts).map String.toList) (pattern :: patterns) := by
  have hcons := Parameters.cons blanks_nil htext blanks_nil (fun hellipsis => by rw [hlast hellipsis]; rfl) h
  rwa [List.nil_append, List.append_nil] at hcons

theorem parameters_display (isVarargs : Bool) {types : List TypeRef}
    (h : ∀ type ∈ types, WellNamed type) :
    ∃ patterns, Parameters ((Signature.displayParameters isVarargs types).map String.toList) patterns ∧
      List.Forall₂ PatternFor types patterns := by
  fun_induction Signature.displayParameters isVarargs types with
  | case1 => exact ⟨[], .nil, .nil⟩
  | case2 element =>
      obtain ⟨name, helement, hname⟩ := List.forall_mem_singleton.1 h
      refine ⟨[_], ?_, .cons ⟨name, helement, hname, rfl⟩ .nil⟩
      cases isVarargs with
      | true => exact parameters_cons (parameterText_ellipsis helement hname) (fun _ => rfl) .nil
      | false => exact parameters_cons (parameterText_display helement hname) nofun .nil
  | case3 type rest hother ih =>
      obtain ⟨⟨name, helement, hname⟩, hrest⟩ := List.forall_mem_cons.1 h
      obtain ⟨patterns, hparameters, hpatterns⟩ := ih hrest
      exact ⟨_, parameters_cons (parameterText_display helement hname) nofun hparameters,
        .cons ⟨name, helement, hname, rfl⟩ hpatterns⟩

theorem comma_not_mem_display (isVarargs : Bool) {types : List TypeRef}
    (h : ∀ type ∈ types, WellNamed type) :
    ∀ text ∈ Signature.displayParameters isVarargs types, ',' ∉ text.toList := by
  have hdisplay : ∀ {type : TypeRef}, WellNamed type → ',' ∉ type.display.toList := by
    rintro type ⟨name, helement, hname⟩
    exact not_mem_display helement hname (by decide) (by decide) (by decide) (by decide)
  fun_induction Signature.displayParameters isVarargs types with
  | case1 => nofun
  | case2 element =>
      have hwell : WellNamed (.array element) := List.forall_mem_singleton.1 h
      have helement := hdisplay (show WellNamed element from hwell)
      rw [List.forall_mem_singleton]
      split_ifs <;> simpa using helement
  | case3 type rest hother ih =>
      obtain ⟨htype, hrest⟩ := List.forall_mem_cons.1 h
      exact List.forall_mem_cons.2 ⟨hdisplay htype, ih hrest⟩

theorem listText_display (isVarargs : Bool) {types : List TypeRef} (h : ∀ type ∈ types, WellNamed type) :
    ∃ patterns, ListText (String.intercalate "," (Signature.displayParameters isVarargs types)).toList
      patterns ∧ List.Forall₂ PatternFor types patterns := by
  obtain ⟨patterns, hparameters, hpatterns⟩ := parameters_display isVarargs h
  refine ⟨patterns, ?_, hpatterns⟩
  have hcomma := comma_not_mem_display isVarargs h
  generalize Signature.displayParameters isVarargs types = texts at hparameters hcomma
  rw [String.toList_intercalate]
  by_cases hnone : texts = []
  · subst hnone
    cases hparameters
    exact .none blanks_nil
  · rw [show ",".toList = [','] from rfl, intercalate_eq_join]
    exact .parameters (by simpa using hnone) (List.forall_mem_map.2 hcomma) hparameters

/-! ### What the patterns select -/

/-- A parameter of the second type is one that the name of the first stands for: it has as many
dimensions, and its element has the same name, or one behind the implicit package where the first name
has no dot and is not that of a primitive type. -/
def Agrees (type type' : TypeRef) : Prop :=
  type'.arrayParts.2 = type.arrayParts.2 ∧
    ∃ name name', elementName? type = some name ∧ elementName? type' = some name' ∧
      (name' = name ∨ '.' ∉ name.toList ∧ name ∉ primitives ∧ name' = "java.lang." ++ name)

theorem names_iff {name name' : String} (h : '*' ∉ name.toList) :
    Names name.toList name'.toList ↔
      name' = name ∨ '.' ∉ name.toList ∧ name ∉ primitives ∧ name' = "java.lang." ++ name := by
  have hsame : name'.toList = name.toList ↔ name' = name := String.toList_inj
  have himplicit : (∃ simple, name'.toList = implicitPackage ++ simple ∧ simple = name.toList) ↔
      name' = "java.lang." ++ name := by
    rw [← String.toList_inj, String.toList_append]
    exact ⟨fun ⟨_, hname, hsimple⟩ => hsimple ▸ hname, fun hname => ⟨_, hname, rfl⟩⟩
  simp only [Names, Glob.eq_iff h, String.ofList_toList, hsame, himplicit]

theorem accepts_iff_agrees {type type' : TypeRef} {pattern : ParameterPattern}
    (h : PatternFor type pattern) : pattern.accepts type' = true ↔ Agrees type type' := by
  obtain ⟨name, helement, hname, rfl⟩ := h
  have hglob := hname.not_mem (c := '*') (by decide) (by decide)
  have haccepts : (ParameterPattern.type name.toList type.arrayParts.2).accepts type' = true ↔
      type'.arrayParts.2 = type.arrayParts.2 ∧
        ∃ name', elementName? type' = some name' ∧ Names name.toList name'.toList := by
    rw [ParameterPattern.accepts, Bool.and_eq_true, beq_iff_eq, elementName?]
    cases type'.arrayParts.1 <;> simp [elementMatches_iff]
  rw [haccepts]
  refine and_congr_right fun _ => ?_
  constructor
  · rintro ⟨name', helement', hnames⟩
    exact ⟨name, name', helement, helement', (names_iff hglob).1 hnames⟩
  · rintro ⟨_, name', hsame, helement', hnames⟩
    cases helement.symm.trans hsame
    exact ⟨name', helement', (names_iff hglob).2 hnames⟩

theorem replacesAll_iff {types types' : List TypeRef} {patterns : List ParameterPattern}
    (h : List.Forall₂ PatternFor types patterns) :
    ReplacesAll patterns types' ↔ List.Forall₂ Agrees types types' := by
  induction h generalizing types' with
  | nil => rw [replacesAll_nil, List.forall₂_nil_left_iff]
  | @cons type pattern types patterns hpattern _ ih =>
      have hrun : pattern ≠ .anyRun := by
        obtain ⟨name, -, -, rfl⟩ := hpattern
        nofun
      rw [replacesAll_cons, List.forall₂_cons_left_iff]
      simp only [accepts_iff hrun, accepts_iff_agrees hpattern, ih]
      constructor
      · rintro ⟨_, rest, rfl, ⟨type', rfl, hagrees⟩, hrest⟩
        exact ⟨type', rest, hagrees, hrest, rfl⟩
      · rintro ⟨type', rest, hagrees, hrest, rfl⟩
        exact ⟨[type'], rest, rfl, ⟨type', rfl, hagrees⟩, hrest⟩

theorem agrees_self {type : TypeRef} (h : WellNamed type) : Agrees type type := by
  obtain ⟨name, helement, -⟩ := h
  exact ⟨rfl, name, name, helement, helement, .inl rfl⟩

/-- The names of the method are words with dots between them, and the types of its parameters are all
known. -/
structure Displayable (method : Signature) : Prop where
  declaringType : IsDotted method.declaringType
  name : IsWord method.name
  parameters : ∀ type ∈ method.parameters, WellNamed type

theorem patternText_display {method : Signature} (h : Displayable method) :
    ∃ patterns, PatternText method.display.toList method.declaringType.toList method.name.toList patterns ∧
      List.Forall₂ PatternFor method.parameters patterns := by
  obtain ⟨patterns, hlist, hpatterns⟩ := listText_display method.isVarargs h.parameters
  refine ⟨patterns, ?_, hpatterns⟩
  have hgap : Blanks [' '] := List.forall_mem_singleton.2 (by decide)
  have htext := PatternText.parts blanks_nil (isOwner_of_dotted h.declaringType)
    (h.declaringType.not_mem (by decide) (by decide)) hgap (List.cons_ne_nil _ _) (isName_of_word h.name)
    (h.name.not_mem (by decide)) blanks_nil hlist blanks_nil
  have hdisplay : method.display.toList = [] ++ method.declaringType.toList ++ [' '] ++
      method.name.toList ++ [] ++ '(' :: ((String.intercalate ","
        (Signature.displayParameters method.isVarargs method.parameters)).toList ++ ')' :: []) := by
    simp [Signature.display]
  rwa [hdisplay]

theorem exists_pattern_display {method : Signature} (h : Displayable method) :
    ∃ pattern, MethodPattern.parse? method.display = .ok pattern ∧
      pattern.owner = method.declaringType.toList ∧ pattern.name = method.name.toList ∧
      List.Forall₂ PatternFor method.parameters pattern.parameters ∧
      ∀ other : Signature, pattern.selects other = true ↔
        other.declaringType = method.declaringType ∧ other.name = method.name ∧
          List.Forall₂ Agrees method.parameters other.parameters := by
  obtain ⟨patterns, htext, hpatterns⟩ := patternText_display h
  refine ⟨_, MethodPattern.parse?_of_text htext, rfl, rfl, hpatterns, fun other => ?_⟩
  have howner := h.declaringType.not_mem (c := '*') (by decide) (by decide)
  have hname := h.name.not_mem (c := '*') (by decide)
  rw [MethodPattern.selects_iff, Glob.eq_iff howner, Glob.eq_iff hname, String.toList_inj,
    String.toList_inj, replacesAll_iff hpatterns]

namespace Library

/-- The expressions that the class of a method, its name and the elements of its parameters are translated
to. -/
def displayExpressions {ρ : Type} (library : Library ρ) (method : Signature) : List (List Char) :=
  method.parameters.filterMap
      (fun type => (elementName? type).map fun name => library.wildcardText name.toList true)
    ++ [library.wildcardText method.declaringType.toList false,
      library.wildcardText method.name.toList false]

theorem parameterExpressions_eq {ρ : Type} (library : Library ρ) {types : List TypeRef}
    {patterns : List ParameterPattern} (h : List.Forall₂ PatternFor types patterns) :
    library.parameterExpressions patterns = types.filterMap
      fun type => (elementName? type).map fun name => library.wildcardText name.toList true := by
  induction h with
  | nil => rfl
  | cons hpattern _ ih =>
      obtain ⟨name, helement, -, rfl⟩ := hpattern
      rw [List.filterMap_cons, helement, ← ih]
      rfl

/-- The text in which a method is displayed is compiled to a pattern that selects it, where the library
finds none of the expressions in it too big; it is not refused for any other reason. The pattern selects
exactly the methods of the same class and name whose parameters have, one by one, as many dimensions and
elements of the same names, where a name without a package may also be behind that of the implicit one. -/
theorem compilePattern_display {ρ : Type} {library : Library ρ} (hlibrary : library.Documented)
    {method : Signature} (h : Displayable method) :
    ((∀ expression ∈ library.displayExpressions method, ∀ limit,
        library.compile expression ≠ .error (.tooBig limit)) →
      ∃ compiled, library.compilePattern method.display = .ok compiled) ∧
    (∀ e, library.compilePattern method.display = .error e →
      e.pattern = method.display ∧ library.TooBig (library.displayExpressions method) e.fault) ∧
    ∀ compiled, library.compilePattern method.display = .ok compiled →
      library.selects compiled method = true ∧
        ∀ other : Signature, library.selects compiled other = true ↔
          other.declaringType = method.declaringType ∧ other.name = method.name ∧
            List.Forall₂ Agrees method.parameters other.parameters := by
  obtain ⟨pattern, hparse, howner, hname, hpatterns, hselects⟩ := exists_pattern_display h
  have hexpressions : library.expressions pattern = library.displayExpressions method := by
    rw [expressions, displayExpressions, parameterExpressions_eq library hpatterns, howner, hname]
  have herror : ∀ e, library.compilePattern method.display = .error e →
      e.pattern = method.display ∧ library.TooBig (library.displayExpressions method) e.fault := by
    intro e he
    obtain ⟨fault, hfault, rfl⟩ := mapError_eq_error.1 he
    exact ⟨rfl, hexpressions ▸ tooBig_of_pattern hlibrary hparse hfault⟩
  refine ⟨fun hsize => ?_, herror, fun compiled hcompiled => ?_⟩
  · cases hcompile : library.compilePattern method.display with
    | ok compiled => exact ⟨compiled, rfl⟩
    | error e =>
        obtain ⟨-, expression, hmem, limit, hbig, -⟩ := herror e hcompile
        exact absurd hbig (hsize expression hmem limit)
  · obtain ⟨pattern', hparse', hcompiles⟩ := exists_compiles hcompiled
    obtain rfl : pattern' = pattern := by
      rw [hparse] at hparse'
      exact (Except.ok.inj hparse').symm
    have hiff := fun other => selects_of_compiles hlibrary hcompiles other ▸ hselects other
    refine ⟨(hiff method).2 ⟨rfl, rfl, ?_⟩, hiff⟩
    exact List.forall₂_same.2 fun type htype => agrees_self (h.parameters type htype)

/-- A method whose last parameter, an array of arrays, is variable. The class of strings agrees with the
one that its text names without a package. -/
theorem compilePattern_display_varargs :
    ∃ compiled, plain.compilePattern "p.A$1 m(String,int,q.B[]...)" = .ok compiled ∧
      (∀ other : Signature, plain.selects compiled other = true ↔ other.declaringType = "p.A$1" ∧
        other.name = "m" ∧ List.Forall₂ Agrees
          [.named "String", .primitive "int", .array (.array (.named "q.B"))] other.parameters) ∧
      Agrees (.named "String") .string := by
  let method : Signature :=
    { declaringType := "p.A$1", name := "m", returns := .unknown, isStatic := false, isVarargs := true,
      parameters := [.named "String", .primitive "int", .array (.array (.named "q.B"))] }
  have hdisplay : method.display = "p.A$1 m(String,int,q.B[]...)" := by decide
  have h : Displayable method := by
    refine ⟨by decide, by decide, ?_⟩
    rw [List.forall_mem_cons, List.forall_mem_cons, List.forall_mem_singleton]
    exact ⟨⟨_, rfl, by decide⟩, ⟨_, rfl, isDotted_of_primitives _ (by decide)⟩,
      ⟨_, rfl, by decide⟩⟩
  obtain ⟨haccepted, -, hselects⟩ := compilePattern_display plain_documented h
  have hsize : ∀ expression ∈ plain.displayExpressions method, ∀ limit,
      plain.compile expression ≠ .error (.tooBig limit) := by
    intro expression _ limit
    simp only [plain]
    cases Expression.read expression <;> simp
  obtain ⟨compiled, hcompiled⟩ := haccepted hsize
  refine ⟨compiled, hdisplay ▸ hcompiled, (hselects compiled hcompiled).2, rfl, _, _, rfl, rfl, .inr ?_⟩
  decide

end Library

end Codemod.Pattern
