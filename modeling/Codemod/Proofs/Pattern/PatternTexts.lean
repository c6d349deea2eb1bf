import Codemod.Proofs.Pattern.ParameterTexts
import Codemod.Proofs.Pattern.Wildcards

/-!
How method patterns are written, and what they select. The text of a pattern is that of the class, the
method and the parameters in parentheses; what reading takes from it is what these texts stand for, so the
methods that a pattern selects are said by its text alone.
-/

namespace Codemod.Pattern

open Codemod.Text

/-! ### The class and the method -/

/-- The glob of the class in front of a pattern. -/
structure IsOwner (owner : List Char) : Prop where
  nonempty : owner ≠ []
  noBlank : ∀ c ∈ owner, isBlank c = false
  segments : ¬ ['.', '.'] <:+: owner
  first : owner.head? ≠ some '.'
  last : owner.getLast? ≠ some '.'

/-- The glob of the method behind the class. -/
structure IsName (name : List Char) : Prop where
  nonempty : name ≠ []
  noBlank : ∀ c ∈ name, isBlank c = false
  noDot : '.' ∉ name

section
variable {owner name head : List Char}

theorem IsOwner.bare (h : IsOwner owner) : Bare owner :=
  .of_forall h.nonempty h.noBlank

theorem IsName.bare (h : IsName name) : Bare name :=
  .of_forall h.nonempty h.noBlank

theorem ownerAndName_iff : ownerAndName head = .ok (owner, name) ↔
    head.takeWhile (fun c => !isBlank c) = owner ∧ trimmed (head.drop owner.length) = name ∧
      IsOwner owner ∧ IsName name := by
  rw [ownerAndName]
  constructor
  · intro h
    generalize howner : head.takeWhile (fun c => !isBlank c) = front at h
    generalize hname : trimmed (head.drop front.length) = back at h
    split_ifs at h with hempty hsegments hdot
    cases h
    simp only [Bool.or_eq_true, not_or, List.isEmpty_iff, List.any_eq_true, not_exists, not_and,
      Bool.not_eq_true, beq_iff_eq, hasEmptySegment_iff, List.contains_iff_mem]
      at hempty hsegments hdot
    refine ⟨rfl, hname, ⟨hempty.1.1, fun c hc => ?_, hsegments.1.1, hsegments.1.2, hsegments.2⟩,
      ⟨hempty.1.2, hempty.2, hdot⟩⟩
    rw [← howner] at hc
    simpa using List.mem_takeWhile_imp hc
  · rintro ⟨howner, hname, hisOwner, hisName⟩
    rw [howner, hname, if_neg, if_neg, if_neg]
    · simpa using hisName.noDot
    · simpa [hasEmptySegment_iff] using ⟨⟨hisOwner.segments, hisOwner.first⟩, hisOwner.last⟩
    · simpa using ⟨⟨hisOwner.nonempty, hisName.nonempty⟩, hisName.noBlank⟩

theorem ownerAndName_append {gap : List Char} (howner : IsOwner owner) (hgap : Blanks gap)
    (hsome : gap ≠ []) (hname : IsName name) :
    ownerAndName (owner ++ gap ++ name) = .ok (owner, name) := by
  obtain ⟨blank, gap', rfl⟩ := List.exists_cons_of_ne_nil hsome
  have hblank : isBlank blank = true := hgap blank List.mem_cons_self
  have htrimmed := hname.bare.trimmed_append hgap blanks_nil
  rw [List.append_nil] at htrimmed
  rw [ownerAndName_iff, List.append_assoc, List.drop_left]
  refine ⟨takeWhile_append (fun c hc => by simp [howner.noBlank c hc]) ?_, htrimmed, howner, hname⟩
  simpa using hblank

theorem exists_of_ownerAndName (h : ownerAndName (trimmed head) = .ok (owner, name)) :
    IsOwner owner ∧ IsName name ∧ ∃ lead gap behind, head = lead ++ owner ++ gap ++ name ++ behind ∧
      Blanks lead ∧ Blanks gap ∧ gap ≠ [] ∧ Blanks behind := by
  obtain ⟨howner, hname, hisOwner, hisName⟩ := ownerAndName_iff.1 h
  obtain ⟨lead, trail, hhead, hlead, htrail, -⟩ := exists_trimmed head
  obtain ⟨rest, hrest⟩ : owner <+: trimmed head := howner ▸ List.takeWhile_prefix _
  rw [← hrest, List.drop_left] at hname
  obtain ⟨gap, behind, hgapped, hgap, hbehind, -⟩ := exists_trimmed rest
  rw [hname] at hgapped
  refine ⟨hisOwner, hisName, lead, gap, behind ++ trail, ?_, hlead, hgap, ?_, hbehind.append htrail⟩
  · rw [hhead, ← hrest, hgapped]
    simp only [List.append_assoc]
  · rintro rfl
    -- Without a gap the name would belong to what the owner is taken from.
    obtain ⟨c, name, rfl⟩ := List.exists_cons_of_ne_nil hisName.nonempty
    have hc := hisName.noBlank c List.mem_cons_self
    rw [← hrest, hgapped, List.takeWhile_append_of_pos fun d hd => by
      simp [hisOwner.noBlank d hd]] at howner
    simp [hc] at howner

end

/-! ### Patterns -/

/-- The text of a pattern, with the globs of the class and the method and the patterns of the parameters. -/
inductive PatternText : List Char → List Char → List Char → List ParameterPattern → Prop where
  | parts {lead owner gap name behind list trail : List Char} {patterns : List ParameterPattern}
      (hlead : Blanks lead) (howner : IsOwner owner) (hopenOwner : '(' ∉ owner) (hgap : Blanks gap)
      (hsome : gap ≠ []) (hname : IsName name) (hopenName : '(' ∉ name) (hbehind : Blanks behind)
      (hlist : ListText list patterns) (htrail : Blanks trail) :
      PatternText (lead ++ owner ++ gap ++ name ++ behind ++ '(' :: (list ++ ')' :: trail)) owner name
        patterns

namespace MethodPattern

variable {text : String} {pattern : MethodPattern} {head list trail : List Char}

theorem parse?_append (htext : text.toList = head ++ '(' :: (list ++ ')' :: trail)) (hhead : '(' ∉ head)
    (htrail : Blanks trail) :
    parse? text = (do
      let (owner, name) ← ownerAndName (trimmed head)
      let parameters ← parameterList list
      .ok { source := text, owner, name, parameters }) := by
  have hopen : '(' ∉ trimLeft head := fun hmem => hhead (List.dropWhile_subset _ hmem)
  have hbare : Bare ('(' :: list ++ [')']) :=
    ⟨by simp, fun c hc => by
      cases hc
      decide, fun c hc => by
      rw [List.getLast?_concat] at hc
      cases hc
      decide⟩
  have htrimmed : trimmed text.toList = trimLeft head ++ '(' :: (list ++ [')']) := by
    rw [← List.cons_append, ← hbare.trimmed_append_left head htrail, htext]
    simp
  have hhead' : trimmed (trimLeft head) = trimmed head := by
    obtain ⟨lead, hlead, hblanks, -⟩ := exists_trimLeft head
    conv_rhs => rw [hlead]
    simpa using (trimmed_append hblanks (trimLeft head) blanks_nil).symm
  have hlast : (list ++ [')']).getLast? = some ')' := List.getLast?_concat
  rw [parse?, htrimmed, splitFirst_append hopen]
  simp only [hlast, hhead', List.dropLast_concat, bne_self_eq_false]
  rfl

theorem exists_of_parse? (h : parse? text = .ok pattern) :
    ∃ head list trail, text.toList = head ++ '(' :: (list ++ ')' :: trail) ∧ '(' ∉ head ∧
      Blanks trail := by
  rw [parse?] at h
  obtain ⟨lead, trail, htext, hlead, htrail, -⟩ := exists_trimmed text.toList
  cases hsplit : splitFirst '(' (trimmed text.toList) with
  | none => simp [hsplit] at h
  | some parts =>
      obtain ⟨head, back⟩ := parts
      obtain ⟨hparts, hhead⟩ := splitFirst_eq_some hsplit
      simp only [hsplit] at h
      split_ifs at h with hlast
      rcases List.eq_nil_or_concat back with rfl | ⟨list, c, rfl⟩
      · simp at hlast
      · rw [List.concat_eq_append] at hlast hparts
        obtain rfl : c = ')' := by simpa using hlast
        refine ⟨lead ++ head, list, trail, ?_, ?_, htrail⟩
        · rw [htext, hparts]
          simp
        · simpa using ⟨hlead.not_mem (by decide), hhead⟩

theorem parse?_of_text {owner name : List Char} {patterns : List ParameterPattern}
    (h : PatternText text.toList owner name patterns) :
    parse? text = .ok { source := text, owner, name, parameters := patterns } := by
  generalize htext : text.toList = cs at h
  cases h with
  | @parts lead _ gap _ behind list trail _ hlead howner hopenOwner hgap hsome hname hopenName hbehind
      hlist htrail =>
      have hhead : '(' ∉ lead ++ owner ++ gap ++ name ++ behind := by
        simpa using ⟨hlead.not_mem (by decide), hopenOwner, hgap.not_mem (by decide), hopenName,
          hbehind.not_mem (by decide)⟩
      have htrimmed : trimmed (lead ++ owner ++ gap ++ name ++ behind) = owner ++ gap ++ name := by
        rw [← (howner.bare.append gap hname.bare).trimmed_append hlead hbehind]
        simp only [List.append_assoc]
      rw [parse?_append htext hhead htrail, htrimmed, ownerAndName_append howner hgap hsome hname,
        parameterList_iff.2 hlist]
      rfl

theorem text_of_parse? (h : parse? text = .ok pattern) :
    PatternText text.toList pattern.owner pattern.name pattern.parameters := by
  obtain ⟨head, list, trail, htext, hhead, htrail⟩ := exists_of_parse? h
  rw [parse?_append htext hhead htrail] at h
  obtain ⟨⟨owner, name⟩, hglobs, h⟩ := bind_eq_ok.1 h
  obtain ⟨patterns, hlist, h⟩ := bind_eq_ok.1 h
  cases h
  obtain ⟨howner, hname, lead, gap, behind, rfl, hlead, hgap, hsome, hbehind⟩ :=
    exists_of_ownerAndName hglobs
  simp only [List.mem_append, not_or] at hhead
  rw [htext]
  exact .parts hlead howner hhead.1.1.1.2 hgap hsome hname hhead.1.2 hbehind
    (parameterList_iff.1 hlist) htrail

theorem parse_iff : parse text = .ok pattern ↔ parse? text = .ok pattern := by
  rw [parse, mapError_eq_ok]

theorem selects_iff {method : Java.Signature} : pattern.selects method = true ↔
    Glob pattern.owner method.declaringType.toList ∧ Glob pattern.name method.name.toList ∧
      ReplacesAll pattern.parameters method.parameters := by
  rw [selects, selectsOwner, selectsName, Bool.and_eq_true, Bool.and_eq_true, globMatches_iff,
    globMatches_iff, parametersMatch_iff, and_assoc]

end MethodPattern

namespace Library

/-- A compiled pattern selects the methods that its text describes. The text has one reading as globs for
the class and the method and patterns for the parameters, and the pattern selects a method if the globs
spell the class that declares it and its name, and its parameters are what the patterns stand for, one
after another; nothing else of the method is asked. -/
theorem selects_iff_text {ρ : Type} {library : Library ρ} (hlibrary : library.Documented) {text : String}
    {compiled : CompiledPattern ρ} (hcompile : library.compilePattern text = .ok compiled) :
    ∃ owner name patterns, PatternText text.toList owner name patterns ∧
      (∀ owner' name' patterns', PatternText text.toList owner' name' patterns' →
        owner' = owner ∧ name' = name ∧ patterns' = patterns) ∧
      ∀ method : Java.Signature, library.selects compiled method = true ↔
        Glob owner method.declaringType.toList ∧ Glob name method.name.toList ∧
          ReplacesAll patterns method.parameters := by
  obtain ⟨pattern, hread, hcompiles⟩ := exists_compiles hcompile
  refine ⟨pattern.owner, pattern.name, pattern.parameters, MethodPattern.text_of_parse? hread,
    fun owner name patterns htext => ?_, fun method => ?_⟩
  · rw [MethodPattern.parse?_of_text htext] at hread
    cases hread
    exact ⟨rfl, rfl, rfl⟩
  · rw [selects_of_compiles hlibrary hcompiles]
    exact MethodPattern.selects_iff

/-- The pattern for any parameters and an array of lists behind them, of methods whose name begins with
a letter. -/
theorem selects_iff_text_arrays :
    ∃ compiled, plain.compilePattern "a.B m*(.., List<String> [])" = .ok compiled ∧
      ∀ method : Java.Signature, plain.selects compiled method = true ↔
        Glob ['a', '.', 'B'] method.declaringType.toList ∧ Glob ['m', '*'] method.name.toList ∧
          ReplacesAll [.anyRun, .type ['L', 'i', 's', 't'] 1] method.parameters := by
  have hcompile : ∃ compiled, plain.compilePattern "a.B m*(.., List<String> [])" = .ok compiled :=
    (exists_ok_of_any (p := fun _ => true) (by decide)).imp fun _ => And.left
  have hparse : MethodPattern.parse? "a.B m*(.., List<String> [])" =
      .ok ⟨"a.B m*(.., List<String> [])", ['a', '.', 'B'], ['m', '*'],
        [.anyRun, .type ['L', 'i', 's', 't'] 1]⟩ := by
    decide
  obtain ⟨compiled, hcompile⟩ := hcompile
  obtain ⟨owner, name, patterns, -, hunique, hselects⟩ := selects_iff_text plain_documented hcompile
  obtain ⟨rfl, rfl, rfl⟩ := hunique _ _ _ (MethodPattern.text_of_parse? hparse)
  exact ⟨compiled, hcompile, hselects⟩

end Library

end Codemod.Pattern
