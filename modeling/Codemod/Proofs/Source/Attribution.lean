import Codemod.Engine
import Codemod.Proofs.Recipes.MethodMentions

/-!
Attribution and the engine. Attribution finds out about classes, methods and calls, and changes
nothing else in the units of a source set, so each file that was parsed prints its text. The engine
refuses none of them.
-/

namespace Codemod.Source

open Codemod.Engine Codemod.Java Codemod.Recipes.MethodName Codemod.Tree

/-- What attribution found out about the node is for nodes of its kind: the name of a class, the
method of a declaration or that of a call. -/
structure TypeFits (n : Node) : Prop where
  type : ∀ name, n.type? = some (.type name) → n.kind = .java .classDeclaration
  method : ∀ m, n.type? = some (.method m) → n.kind = .java .methodDeclaration
  invocation : ∀ m viaStaticImport, n.type? = some (.invocation m viaStaticImport) →
    n.kind = .java .methodInvocation

theorem typeFits_of_spelled {symbols : SymbolTable} {n : Node} (h : Spelled symbols n) :
    TypeFits n where
  type := h.type
  method := fun m hm => (h.declaration m hm).1
  invocation := fun m via hm => (h.call m via hm).1

/-- The file was parsed as Java, by itself or in a source set. -/
def Accepted (file : SourceFile) : Prop :=
  (∃ path text, Language.java.parse path text = .ok file) ∨
    ∃ inputs, .ok file ∈ Language.java.parseAll inputs

theorem exists_of_accepted {file : SourceFile} (h : Accepted file) :
    ∃ units unit, parseUnit file.text = .ok unit ∧
      file.root = attributeUnit (.ofUnits units) unit := by
  rcases h with ⟨path, text, h⟩ | ⟨inputs, h⟩
  · rw [Language.parse] at h
    cases hparse : parseJava path text with
    | error e =>
        rw [hparse] at h
        cases h
    | ok unit =>
        rw [hparse] at h
        cases h
        exact ⟨[unit], unit, parseJava_ok.1 hparse, rfl⟩
  · obtain ⟨i, _, unit, hparse, rfl⟩ := mem_files.1 (mem_successes.2 h)
    exact ⟨unitsOf inputs, unit, hparse, rfl⟩

theorem print_of_accepted {file : SourceFile} (h : Accepted file) : file.root.print = file.text := by
  obtain ⟨units, unit, hparse, hroot⟩ := exists_of_accepted h
  rw [hroot]
  exact (attributed_of_parseUnit hparse _).2

theorem print_of_refused {settings : Settings} {recipes : List Recipe} {file : SourceFile}
    {path : String} (h : runFile settings recipes file = .error (.printConsistency path)) :
    file.root.print ≠ file.text ∧ file.path = path := by
  rw [runFile, runHeld] at h
  split_ifs at h with hprint
  · cases h
    exact ⟨by simpa using hprint, rfl⟩
  · split at h <;> cases h

theorem refused_of_run {settings : Settings} {recipes : List Recipe}
    {sources : List (Except ParseFailure SourceFile)} {path : String}
    (h : .printConsistency path ∈ (run settings recipes sources).failures) :
    ∃ file, .ok file ∈ sources ∧ file.root.print ≠ file.text ∧ file.path = path := by
  obtain ⟨outcome, houtcome, hrefused⟩ := List.mem_filterMap.1 h
  rw [ite_self] at houtcome
  obtain ⟨result, hresult, rfl⟩ := List.mem_map.1 houtcome
  cases result with
  | error failure => cases hrefused
  | ok file =>
      refine ⟨file, hresult, ?_⟩
      split at hrefused
      · rename_i e he
        cases hrefused
        exact print_of_refused he
      · cases hrefused

/-- Attribution gives each parsed unit of a source set back, in its place, with nothing but what it
found out added to it: names to classes, and methods to declarations and calls. So a file that was
parsed is never the one that a run refuses for not printing its text. -/
theorem attribution_adds_types {units : List Node}
    (hunits : ∀ unit ∈ units, ∃ source, parseUnit source = .ok unit) :
    (attributeAll units).map Node.untyped = units ∧
      (∀ unit ∈ attributeAll units, unit.Everywhere TypeFits) ∧
      (∀ file, Accepted file → file.root.print = file.text ∧
        ∀ settings recipes path, runFile settings recipes file ≠ .error (.printConsistency path)) ∧
      ∀ settings recipes sources path,
        .printConsistency path ∈ (run settings recipes sources).failures →
          ∃ file, .ok file ∈ sources ∧ file.path = path ∧ ¬ Accepted file := by
  refine ⟨?_, fun unit hunit => ?_, fun file haccepted => ?_,
    fun settings recipes sources path h => ?_⟩
  · have hstays : ∀ unit ∈ units,
        (attributeUnit (.ofUnits units) unit).untyped = unit := by
      intro unit hunit
      obtain ⟨source, hsource⟩ := hunits unit hunit
      exact untyped_attributeUnit hsource _
    rw [attributeAll, List.map_map]
    exact (List.map_congr_left hstays).trans (List.map_id' units)
  · obtain ⟨parsed, hparsed, rfl⟩ := List.mem_map.1 hunit
    obtain ⟨source, hsource⟩ := hunits parsed hparsed
    exact (spelled_attributeUnit hsource _).imp fun _ => typeFits_of_spelled
  · have hprint := print_of_accepted haccepted
    exact ⟨hprint, fun settings recipes path h => (print_of_refused h).1 hprint⟩
  · obtain ⟨file, hfile, hprint, hpath⟩ := refused_of_run h
    exact ⟨file, hfile, hpath, fun haccepted => hprint (print_of_accepted haccepted)⟩

/-- A call of a method in the other unit is found out about in both. -/
theorem attribution_adds_types_call :
    let units := successes (["class A \x7b void a() \x7b new B().b(); \x7d \x7d",
      "class B \x7b void b() \x7b\x7d \x7d"].map parseUnit)
    (attributeAll units).map (fun unit => (mentions unit).map Prod.fst) = [["a", "b"], ["b"]] ∧
      attributeAll units ≠ units ∧ (attributeAll units).map Node.untyped = units := by
  intro units
  refine ⟨by decide +kernel, by decide +kernel, ?_⟩
  refine (attribution_adds_types fun unit hunit => ?_).1
  obtain ⟨source, _, hsource⟩ := List.mem_map.1 (mem_successes.1 hunit)
  exact ⟨source, hsource⟩

end Codemod.Source
