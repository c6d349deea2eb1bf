import Codemod.Pattern.Compiled
import Codemod.Proofs.Outcome
import Codemod.Proofs.Pattern.Globs

/-!
What compiled patterns select. A name with asterisks is cut at them, the parts are escaped, and what is
put together again is read as one expression for each character, between the two ends of a text; so it is
found in the names that the glob spells. A compiled pattern selects what the pattern of globs selects that
the same text spells.
-/

namespace Codemod.Pattern

open Codemod.Text

namespace Expression

/-! ### Reading -/

/-- The expression for a character of a glob. -/
def ofGlob (c : Char) : Expression :=
  if c = '*' then repeated (other '.') else char c

/-- The expression for the implicit package. -/
def package : Expression :=
  optional (sequence (implicitPackage.map char))

/-- The expressions between the two ends of a text. -/
def whole (es : List Expression) : Expression :=
  sequence (start :: es ++ [finish])

/-- The signs for a character of a glob. -/
def globSigns (c : Char) : List Sign :=
  if c = '*' then [.item (other '.'), .repeated] else [.item (char c)]

theorem signs_cons {c : Char} (hbackslash : c ≠ '\\') (hbracket : c ≠ '[') (hopen : c ≠ '(')
    (rest : List Char) : signs (c :: rest) = (sign? c).bind fun sign => (signs rest).map (sign :: ·) := by
  rw [signs]
  all_goals
    intros
    contradiction

theorem signs_escaped (c : Char) (rest : List Char) :
    signs (escaped c ++ rest) = (signs rest).map (.item (char c) :: ·) := by
  rw [escaped]
  split_ifs with hc
  · rw [List.cons_append, List.singleton_append, signs, if_pos hc]
  · have hne : ∀ sign ∈ metaCharacters, c ≠ sign := fun sign hsign heq => hc (heq ▸ hsign)
    simp only [metaCharacters, List.forall_mem_cons] at hne
    have hsign : sign? c = some (.item (char c)) := by
      rw [sign?, if_neg hc] <;> grind
    rw [List.singleton_append, signs_cons (by grind) (by grind) (by grind), hsign, Option.bind_some]

theorem signs_flatMap_escaped (cs rest : List Char) :
    signs (cs.flatMap escaped ++ rest) =
      (signs rest).map (cs.map (fun c => .item (char c)) ++ ·) := by
  induction cs with
  | nil => simp
  | cons c cs ih =>
      rw [List.flatMap_cons, List.append_assoc, signs_escaped, ih, Option.map_map]
      rfl

theorem signs_run (rest : List Char) :
    signs (runText ++ rest) = (signs rest).map ([.item (other '.'), .repeated] ++ ·) := by
  show (signs ('*' :: rest)).map _ = _
  rw [signs_cons (by decide) (by decide) (by decide)]
  exact Option.map_map _ _ _

theorem signs_package (rest : List Char) :
    signs (packageText ++ rest) = (signs rest).map fun signs =>
      .opening :: (implicitPackage.map (fun c => .item (char c)) ++ .closing :: .optional :: signs) := by
  have htext : packageText = ['(', '?', ':'] ++ implicitPackage.flatMap escaped ++ [')', '?'] := by
    decide
  rw [htext, List.append_assoc, List.append_assoc]
  show (signs (implicitPackage.flatMap escaped ++ ')' :: '?' :: rest)).map _ = _
  rw [signs_flatMap_escaped, signs_cons (by decide) (by decide) (by decide),
    signs_cons (by decide) (by decide) (by decide)]
  simp [sign?, Function.comp_def]

theorem assemble_items (es : List Expression) (signs : List Sign) (items : List Expression)
    (groups : List (List Expression)) :
    assemble (es.map .item ++ signs) items groups = assemble signs (es.reverse ++ items) groups := by
  induction es generalizing items with
  | nil => rfl
  | cons e es ih =>
      rw [List.reverse_cons, List.append_assoc, List.singleton_append]
      exact ih (e :: items)

theorem assemble_package (signs : List Sign) (items : List Expression)
    (groups : List (List Expression)) :
    assemble (.opening :: (implicitPackage.map (fun c => .item (char c)) ++
      .closing :: .optional :: signs)) items groups = assemble signs (package :: items) groups := by
  have hitems : implicitPackage.map (fun c => Sign.item (char c)) =
      (implicitPackage.map char).map .item := by
    rw [List.map_map]
    rfl
  rw [assemble, hitems, assemble_items, List.append_nil, assemble, List.reverse_reverse]
  rfl

theorem assemble_globSigns (glob : List Char) (signs : List Sign) (items : List Expression)
    (groups : List (List Expression)) :
    assemble (glob.flatMap globSigns ++ signs) items groups =
      assemble signs ((glob.map ofGlob).reverse ++ items) groups := by
  induction glob generalizing items with
  | nil => rfl
  | cons c glob ih =>
      rw [List.flatMap_cons, List.append_assoc, List.map_cons, List.reverse_cons, List.append_assoc,
        List.singleton_append, globSigns, ofGlob]
      split_ifs
      · exact ih (repeated (other '.') :: items)
      · exact ih (char c :: items)

/-! ### Matching -/

section
variable {front part behind : List Char}

theorem matches_sequence_nil : Matches (sequence []) front part behind ↔ part = [] := by
  constructor
  · rintro ⟨⟩
    rfl
  · rintro rfl
    exact .empty front behind

theorem matches_sequence_cons {e : Expression} {es : List Expression} :
    Matches (sequence (e :: es)) front part behind ↔
      ∃ first others, part = first ++ others ∧ Matches e front first (others ++ behind) ∧
        Matches (sequence es) (front ++ first) others behind := by
  constructor
  · intro h
    cases h with
    | append h h' => exact ⟨_, _, rfl, h, h'⟩
  · rintro ⟨first, others, rfl, h, h'⟩
    exact .append h h'

theorem matches_char {c : Char} : Matches (char c) front part behind ↔ part = [c] := by
  constructor
  · rintro ⟨⟩
    rfl
  · rintro rfl
    exact .char c front behind

theorem matches_chars {cs : List Char} :
    Matches (sequence (cs.map char)) front part behind ↔ part = cs := by
  induction cs generalizing front part with
  | nil => exact matches_sequence_nil
  | cons c cs ih =>
      rw [List.map_cons, matches_sequence_cons]
      simp only [matches_char, ih]
      constructor
      · rintro ⟨_, _, rfl, rfl, rfl⟩
        rfl
      · rintro rfl
        exact ⟨[c], cs, rfl, rfl, rfl⟩

theorem matches_run : Matches (repeated (other '.')) front part behind ↔ '.' ∉ part := by
  constructor
  · intro h
    generalize he : repeated (other '.') = e at h
    induction h with
    | none => exact List.not_mem_nil
    | more hfirst _ _ ih =>
        cases he
        cases hfirst with
        | other hc => simpa using ⟨Ne.symm hc, ih rfl⟩
    | _ => cases he
  · intro hpart
    induction part generalizing front with
    | nil => exact .none _ front behind
    | cons c cs ih =>
        rw [List.mem_cons, not_or] at hpart
        exact .more (.other (Ne.symm hpart.1) front (cs ++ behind)) (ih hpart.2)

theorem matches_glob {glob : List Char} :
    Matches (sequence (glob.map ofGlob)) front part behind ↔ Glob glob part := by
  induction glob generalizing front part with
  | nil =>
      rw [List.map_nil, matches_sequence_nil]
      constructor
      · rintro rfl
        exact .done
      · rintro ⟨⟩
        rfl
  | cons c glob ih =>
      rw [List.map_cons, matches_sequence_cons, ofGlob]
      simp only [ih]
      split_ifs with hc
      · subst hc
        constructor
        · rintro ⟨run, rest, hpart, hrun, h⟩
          exact .run hpart (matches_run.1 hrun) h
        · intro h
          cases h with
          | run hpart hrun h => exact ⟨_, _, hpart, matches_run.2 hrun, h⟩
          | literal hc _ => contradiction
      · constructor
        · rintro ⟨_, rest, rfl, hchar, h⟩
          obtain rfl := matches_char.1 hchar
          exact .literal hc h
        · intro h
          cases h with
          | run => contradiction
          | literal _ h => exact ⟨[c], _, rfl, matches_char.2 rfl, h⟩

theorem matches_package_cons {es : List Expression} :
    Matches (sequence (package :: es)) front part behind ↔
      Matches (sequence es) front part behind ∨
        ∃ rest, part = implicitPackage ++ rest ∧
          Matches (sequence es) (front ++ implicitPackage) rest behind := by
  rw [matches_sequence_cons]
  constructor
  · rintro ⟨first, others, rfl, hfirst, h⟩
    cases hfirst with
    | without =>
        rw [List.append_nil] at h
        exact .inl h
    | present hfirst =>
        obtain rfl := matches_chars.1 hfirst
        exact .inr ⟨others, rfl, h⟩
  · rintro (h | ⟨rest, rfl, h⟩)
    · exact ⟨[], part, rfl, .without _ _ _, by rwa [List.append_nil]⟩
    · exact ⟨implicitPackage, rest, rfl, .present (matches_chars.2 rfl), h⟩

theorem matches_before_finish {es : List Expression} :
    Matches (sequence (es ++ [finish])) front part behind ↔
      behind = [] ∧ Matches (sequence es) front part [] := by
  induction es generalizing front part with
  | nil =>
      rw [List.nil_append, matches_sequence_cons]
      simp only [matches_sequence_nil]
      constructor
      · rintro ⟨first, _, rfl, hfinish, rfl⟩
        generalize hrest : [] ++ behind = rest at hfinish
        cases hfinish
        exact ⟨by simpa using hrest, rfl⟩
      · rintro ⟨rfl, rfl⟩
        exact ⟨[], [], rfl, .finish front, rfl⟩
  | cons e es ih =>
      rw [List.cons_append, matches_sequence_cons, matches_sequence_cons]
      simp only [ih]
      constructor
      · rintro ⟨first, others, hpart, h, rfl, h'⟩
        exact ⟨rfl, first, others, hpart, h, h'⟩
      · rintro ⟨rfl, first, others, hpart, h, h'⟩
        exact ⟨first, others, hpart, h, rfl, h'⟩

theorem finds_whole {es : List Expression} {text : List Char} :
    (whole es).Finds text ↔ Matches (sequence es) [] text [] := by
  rw [Finds, whole]
  simp only [List.cons_append, matches_sequence_cons, matches_before_finish]
  constructor
  · rintro ⟨front, _, behind, htext, first, others, rfl, hstart, rfl, h⟩
    generalize hrest : others ++ [] = rest at hstart
    cases hstart
    rw [List.append_nil] at htext
    rw [htext]
    exact h
  · intro h
    exact ⟨[], text, [], by simp, [], text, rfl, .start _, rfl, h⟩

end

end Expression

/-! ### Names with asterisks -/

namespace Library

variable {ρ : Type} {library : Library ρ} (hlibrary : library.Documented)
include hlibrary

theorem bodyText_eq (text : List Char) :
    library.bodyText text = text.flatMap fun c =>
      if c = '*' then runText else escaped c := by
  rw [bodyText]
  induction text with
  | nil => simp [splitOn, hlibrary.escape_eq]
  | cons c rest ih =>
      rw [List.flatMap_cons, ← ih, splitOn]
      split_ifs with hc
      all_goals
        cases hrest : splitOn '*' rest with
        | nil => exact absurd hrest (splitOn_ne_nil '*' rest)
        | cons part parts => cases parts <;> simp [List.intercalate, hlibrary.escape_eq, *]

theorem signs_body (text rest : List Char) :
    Expression.signs (library.bodyText text ++ rest) =
      (Expression.signs rest).map (text.flatMap Expression.globSigns ++ ·) := by
  rw [bodyText_eq hlibrary]
  induction text with
  | nil => simp
  | cons c text ih =>
      rw [List.flatMap_cons, List.append_assoc, List.flatMap_cons, Expression.globSigns]
      split_ifs with hc
      · rw [Expression.signs_run, ih, Option.map_map]
        rfl
      · rw [Expression.signs_escaped, ih, Option.map_map]
        rfl

theorem read_wildcardText (text : List Char) (isElement : Bool) :
    Expression.read (library.wildcardText text isElement) =
      some (.whole ((if isElement && isImplicit text then [.package] else []) ++
        text.map .ofGlob)) := by
  have hfinish : Expression.signs ['$'] = some [.item .finish] := by decide
  rw [wildcardText, Expression.read, Expression.whole]
  split_ifs
  · rw [List.append_assoc, List.cons_append, Expression.signs_cons (by decide) (by decide) (by decide),
      Expression.signs_package, signs_body hlibrary, hfinish]
    show Expression.assemble (.item .start :: .opening :: (_ ++ .closing :: .optional :: _)) [] [] = _
    rw [Expression.assemble, Expression.assemble_package, Expression.assemble_globSigns]
    simp [Expression.assemble]
  · rw [List.cons_append, Expression.signs_cons (by decide) (by decide) (by decide), signs_body hlibrary,
      hfinish]
    show Expression.assemble (.item .start :: (_ ++ _)) [] [] = _
    rw [Expression.assemble, Expression.assemble_globSigns]
    simp [Expression.assemble]

theorem isMatch_wildcard {text : List Char} {isElement : Bool} {compiled : ρ}
    (h : library.wildcard text isElement = .ok compiled) {name : List Char} :
    library.isMatch compiled name = true ↔ Glob text name ∨ isElement = true ∧ isImplicit text = true ∧
      ∃ simple, name = implicitPackage ++ simple ∧ Glob text simple := by
  rw [wildcard, mapError_eq_ok] at h
  rw [hlibrary.isMatch_iff (read_wildcardText hlibrary text isElement) h, Expression.finds_whole]
  split_ifs with himplicit
  · rw [Bool.and_eq_true] at himplicit
    rw [List.singleton_append, Expression.matches_package_cons]
    simp only [Expression.matches_glob, himplicit, true_and]
  · rw [Bool.and_eq_true, not_and] at himplicit
    rw [List.nil_append, Expression.matches_glob, ← and_assoc]
    simp only [show ¬ (isElement = true ∧ isImplicit text = true) from not_and.2 himplicit, false_and,
      or_false]

theorem isMatch_of_name {text : List Char} {compiled : ρ}
    (h : library.wildcard text false = .ok compiled) (name : String) :
    library.isMatch compiled name.toList = globMatches text name.toList := by
  rw [Bool.eq_iff_iff, isMatch_wildcard hlibrary h, globMatches_iff]
  simp

theorem isMatch_of_element {text : List Char} {compiled : ρ}
    (h : library.wildcard text true = .ok compiled) (name : String) :
    library.isMatch compiled name.toList = elementMatches text name := by
  rw [Bool.eq_iff_iff, isMatch_wildcard hlibrary h, elementMatches_iff, Names]
  simp [isImplicit, and_assoc]

/-! ### Compiled patterns -/

theorem accepts_of_compiled {pattern : ParameterPattern} {compiled : CompiledParameter ρ}
    (h : library.compileParameter pattern = .ok compiled) (type : Java.TypeRef) :
    library.accepts compiled type = pattern.accepts type := by
  cases pattern with
  | anyRun =>
      cases h
      rfl
  | anyOne =>
      cases h
      rfl
  | type element dimensions =>
      obtain ⟨r, hr, h⟩ := bind_eq_ok.1 h
      cases h
      rw [accepts, ParameterPattern.accepts]
      cases type.arrayParts.1 <;> simp only [isMatch_of_element hlibrary hr]

theorem parametersMatch_of_compiled {patterns : List ParameterPattern}
    {compiled : List (CompiledParameter ρ)}
    (h : List.Forall₂ (fun p c => library.compileParameter p = .ok c) patterns compiled)
    (types : List Java.TypeRef) :
    library.parametersMatch compiled types = Pattern.parametersMatch patterns types := by
  induction h generalizing types with
  | nil => rfl
  | @cons pattern c patterns cs hpattern _ ih =>
      have haccepts := accepts_of_compiled hlibrary hpattern
      cases pattern with
      | anyRun =>
          cases hpattern
          rw [parametersMatch, Pattern.parametersMatch, funext ih]
      | anyOne =>
          cases hpattern
          cases types with
          | nil => rfl
          | cons type types => exact congrArg₂ and (haccepts type) (ih types)
      | type element dimensions =>
          obtain ⟨r, -, h⟩ := bind_eq_ok.1 hpattern
          cases h
          cases types with
          | nil => rfl
          | cons type types => exact congrArg₂ and (haccepts type) (ih types)

omit hlibrary in
/-- The compiled pattern is what the parts of the pattern are compiled to. -/
structure Compiles (library : Library ρ) (pattern : MethodPattern) (compiled : CompiledPattern ρ) :
    Prop where
  source : compiled.source = pattern.source
  owner : library.wildcard pattern.owner false = .ok compiled.owner
  name : library.wildcard pattern.name false = .ok compiled.name
  parameters : List.Forall₂ (fun p c => library.compileParameter p = .ok c) pattern.parameters
    compiled.parameters

/-- A compiled pattern selects what the pattern of globs selects. -/
theorem selects_of_compiles {pattern : MethodPattern} {compiled : CompiledPattern ρ}
    (h : library.Compiles pattern compiled) (method : Java.Signature) :
    library.selects compiled method = pattern.selects method := by
  rw [selects, MethodPattern.selects, isMatch_of_name hlibrary h.owner, isMatch_of_name hlibrary h.name,
    parametersMatch_of_compiled hlibrary h.parameters]
  rfl

end Library

/-! ### A library -/

/-- A library that keeps an expression as it is read, whatever its size, and finds what it matches. -/
noncomputable def Library.plain : Library Expression where
  escape := List.flatMap escaped
  compile text :=
    match Expression.read text with
    | some e => .ok e
    | none => .error (.malformed "unsupported")
  isMatch e text := @decide (e.Finds text) (Classical.propDecidable _)
  describe
    | .malformed message => message
    | .tooBig limit => "compiled expression exceeds " ++ toString limit ++ " bytes"

theorem Library.plain_documented : Library.plain.Documented where
  escape_eq _ := rfl
  tooBig_of_read h _ herror := by
    simp only [plain, h] at herror
    cases herror
  isMatch_iff h _ hcompiled _ := by
    simp only [plain, h] at hcompiled
    cases hcompiled
    exact @decide_eq_true_iff _ (Classical.propDecidable _)

/-! ### Reading and compiling -/

namespace Library

variable {ρ : Type} {library : Library ρ} {text : String} {parts : List (List Char)}
  {patterns : List ParameterPattern} {pattern : MethodPattern} {fault : CompileFault}

theorem parameterPatterns_of_compiled {compiled : List (CompiledParameter ρ)}
    (h : library.parameterPatterns parts = .ok compiled) :
    ∃ patterns, Pattern.parameterPatterns parts = .ok patterns ∧
      List.Forall₂ (fun p c => library.compileParameter p = .ok c) patterns compiled := by
  induction parts generalizing compiled with
  | nil =>
      cases h
      exact ⟨[], rfl, .nil⟩
  | cons part parts ih =>
      rw [parameterPatterns] at h
      obtain ⟨first, hfirst, h⟩ := bind_eq_ok.1 h
      obtain ⟨c, hc, h⟩ := bind_eq_ok.1 h
      obtain ⟨cs, hcs, h⟩ := bind_eq_ok.1 h
      cases h
      obtain ⟨others, hothers, hall⟩ := ih hcs
      refine ⟨first :: others, ?_, .cons hc hall⟩
      exact bind_eq_ok.2 ⟨first, mapError_eq_ok.1 hfirst, bind_eq_ok.2 ⟨others, hothers, rfl⟩⟩

theorem parameterList_of_compiled {list : List Char} {compiled : List (CompiledParameter ρ)}
    (h : library.parameterList list = .ok compiled) :
    ∃ patterns, Pattern.parameterList list = .ok patterns ∧
      List.Forall₂ (fun p c => library.compileParameter p = .ok c) patterns compiled := by
  rw [parameterList] at h
  rw [Pattern.parameterList]
  split_ifs at h ⊢
  · cases h
    exact ⟨[], rfl, .nil⟩
  · exact parameterPatterns_of_compiled h

/-- A text that is compiled spells a pattern, of which each part is compiled. -/
theorem exists_compiles {compiled : CompiledPattern ρ}
    (h : library.compilePattern text = .ok compiled) :
    ∃ pattern, MethodPattern.parse? text = .ok pattern ∧ library.Compiles pattern compiled := by
  rw [compilePattern, mapError_eq_ok, compilePattern?] at h
  rw [MethodPattern.parse?]
  cases hsplit : splitFirst '(' (trimmed text.toList) with
  | none => simp [hsplit] at h
  | some sides =>
      obtain ⟨head, list⟩ := sides
      simp only [hsplit] at h ⊢
      split_ifs at h ⊢
      obtain ⟨⟨owner, name⟩, hglobs, h⟩ := bind_eq_ok.1 h
      obtain ⟨parameters, hparameters, h⟩ := bind_eq_ok.1 h
      obtain ⟨owner', howner, h⟩ := bind_eq_ok.1 h
      obtain ⟨name', hname, h⟩ := bind_eq_ok.1 h
      cases h
      obtain ⟨patterns, hpatterns, hall⟩ := parameterList_of_compiled hparameters
      refine ⟨⟨text, owner, name, patterns⟩, ?_, rfl, howner, hname, hall⟩
      exact bind_eq_ok.2 ⟨_, mapError_eq_ok.1 hglobs, bind_eq_ok.2 ⟨_, hpatterns, rfl⟩⟩

/-- The expressions that the patterns of parameters are translated to. -/
def parameterExpressions (library : Library ρ) (patterns : List ParameterPattern) :
    List (List Char) :=
  patterns.filterMap fun
    | .anyRun | .anyOne => none
    | .type element _ => some (library.wildcardText element true)

/-- The expressions that the parts of a pattern are translated to. -/
def expressions (library : Library ρ) (pattern : MethodPattern) : List (List Char) :=
  library.parameterExpressions pattern.parameters ++
    [library.wildcardText pattern.owner false, library.wildcardText pattern.name false]

/-- The fault is that one of the expressions is too big for the library. -/
def TooBig (library : Library ρ) (expressions : List (List Char)) (fault : CompileFault) : Prop :=
  ∃ expression ∈ expressions, ∃ limit, library.compile expression = .error (.tooBig limit) ∧
    fault = .wildcard (.tooBig limit)

theorem TooBig.mono {expressions expressions' : List (List Char)}
    (h : library.TooBig expressions fault) (hsub : expressions ⊆ expressions') :
    library.TooBig expressions' fault := by
  obtain ⟨expression, hmem, hfault⟩ := h
  exact ⟨expression, hsub hmem, hfault⟩

section
variable (hlibrary : library.Documented)
include hlibrary

theorem tooBig_of_wildcard {name : List Char} {isElement : Bool}
    (h : library.wildcard name isElement = .error fault) :
    library.TooBig [library.wildcardText name isElement] fault := by
  obtain ⟨error, herror, rfl⟩ := mapError_eq_error.1 h
  obtain ⟨limit, rfl⟩ := hlibrary.tooBig_of_read (read_wildcardText hlibrary name isElement) herror
  exact ⟨_, List.mem_singleton_self _, limit, herror, rfl⟩

theorem tooBig_of_parameter {pattern : ParameterPattern}
    (h : library.compileParameter pattern = .error fault) :
    library.TooBig (library.parameterExpressions [pattern]) fault := by
  cases pattern with
  | anyRun => cases h
  | anyOne => cases h
  | type element dimensions =>
      rcases bind_eq_error.1 h with h | ⟨_, _, h⟩
      · exact tooBig_of_wildcard hlibrary h
      · cases h

theorem tooBig_of_parameters (hpatterns : Pattern.parameterPatterns parts = .ok patterns)
    (h : library.parameterPatterns parts = .error fault) :
    library.TooBig (library.parameterExpressions patterns) fault := by
  induction parts generalizing patterns with
  | nil => cases h
  | cons part parts ih =>
      rw [Pattern.parameterPatterns] at hpatterns
      obtain ⟨first, hfirst, hpatterns⟩ := bind_eq_ok.1 hpatterns
      obtain ⟨others, hothers, hpatterns⟩ := bind_eq_ok.1 hpatterns
      cases hpatterns
      have hexpressions : library.parameterExpressions (first :: others) =
          library.parameterExpressions [first] ++ library.parameterExpressions others :=
        List.filterMap_append (l := [first])
      rw [hexpressions]
      rw [parameterPatterns, hfirst] at h
      rcases bind_eq_error.1 h with h | ⟨first', hfirst', h⟩
      · cases h
      cases hfirst'
      rcases bind_eq_error.1 h with h | ⟨_, _, h⟩
      · exact (tooBig_of_parameter hlibrary h).mono (List.subset_append_left _ _)
      rcases bind_eq_error.1 h with h | ⟨_, _, h⟩
      · exact (ih hothers h).mono (List.subset_append_right _ _)
      · cases h

theorem tooBig_of_parameterList {list : List Char}
    (hpatterns : Pattern.parameterList list = .ok patterns)
    (h : library.parameterList list = .error fault) :
    library.TooBig (library.parameterExpressions patterns) fault := by
  rw [Pattern.parameterList] at hpatterns
  rw [parameterList] at h
  split_ifs at h hpatterns
  exact tooBig_of_parameters hlibrary hpatterns h

theorem tooBig_of_pattern (hparse : MethodPattern.parse? text = .ok pattern)
    (h : library.compilePattern? text = .error fault) :
    library.TooBig (library.expressions pattern) fault := by
  rw [MethodPattern.parse?] at hparse
  rw [compilePattern?] at h
  cases hsplit : splitFirst '(' (trimmed text.toList) with
  | none => simp [hsplit] at hparse
  | some sides =>
      obtain ⟨head, list⟩ := sides
      simp only [hsplit] at h hparse
      split_ifs at h hparse
      obtain ⟨⟨owner, name⟩, hglobs, hparse⟩ := bind_eq_ok.1 hparse
      obtain ⟨patterns, hpatterns, hparse⟩ := bind_eq_ok.1 hparse
      cases hparse
      rw [hglobs] at h
      rcases bind_eq_error.1 h with h | ⟨globs, hglobs', h⟩
      · cases h
      cases hglobs'
      rcases bind_eq_error.1 h with h | ⟨_, _, h⟩
      · exact (tooBig_of_parameterList hlibrary hpatterns h).mono (List.subset_append_left _ _)
      rcases bind_eq_error.1 h with h | ⟨_, _, h⟩
      · exact (tooBig_of_wildcard hlibrary h).mono (by simp [expressions])
      rcases bind_eq_error.1 h with h | ⟨_, _, h⟩
      · exact (tooBig_of_wildcard hlibrary h).mono (by simp [expressions])
      · cases h

end

end Library

end Codemod.Pattern
