import Codemod.Engine
import Mathlib.Data.List.Forall2
import Mathlib.Data.List.Induction
import Mathlib.Logic.Relation
import Mathlib.Tactic.SplitIfs

/-!
The files of a run apart from each other. Workers treat the sources, each of them once, in their
order or at the same time, and put each outcome into the place of its source. The main statement
says that the result does not hang on which worker is done first, and that it is put together from
the results of runs on each source alone.
-/

namespace Codemod.Engine

open Source

/-- The outcomes that are there so far, with one place for each source. -/
abbrev Places :=
  List (Option (Except RunError Change))

/-- The recipes of a run that are not refused. -/
def runnable (recipes : List Recipe) : List Recipe :=
  recipes.filter fun r => r.validate.isEmpty

/-- The recipes of a run that are refused. -/
def refused (recipes : List Recipe) : List Recipe :=
  recipes.filter fun r => !r.validate.isEmpty

/-- The result of a run with these outcomes, in the order of the sources. -/
def resultOf (recipes : List Recipe) (outcomes : List (Except RunError Change)) : RunResult where
  validation := (refused recipes).flatMap Recipe.validate
  changes := successes outcomes
  failures := failuresOf outcomes

section
variable (settings : Settings) (recipes : List Recipe)
  (sources : List (Except ParseFailure SourceFile))

/-- A worker is done with a source that had no outcome, and puts its outcome into its place. Where
files are not treated at the same time, no source in front of it is still without one. -/
inductive Treats : Places → Places → Prop where
  | source {places : Places} {index : Nat} {source : Except ParseFailure SourceFile}
      (hsource : sources[index]? = some source) (hempty : places[index]? = some none)
      (hturn : settings.parallel = true ∨ none ∉ places.take index) :
      Treats places (places.set index (some (runSource settings recipes source)))

/-- Each outcome stands in the place of its source, in whatever order the workers are done. -/
def KeepsOrder (inParallel : Parallel) : Prop :=
  ∀ treat sources, inParallel treat sources = sources.map treat

/-- Workers that treat the sources from the first to the last one come to these places. -/
abbrev Reaches (places : Places) : Prop :=
  Relation.ReflTransGen (Treats settings recipes sources) (sources.map fun _ => none) places

/-- A run comes to the result when each source has its outcome. -/
def ComesTo (result : RunResult) : Prop :=
  ∃ outcomes, Reaches settings (runnable recipes) sources (outcomes.map some) ∧
    result = resultOf recipes outcomes

/-- Each place is empty or holds the outcome of its source. -/
def Sound (places : Places) : Prop :=
  List.Forall₂
    (fun source place => place = none ∨ place = some (runSource settings recipes source))
    sources places

end

section
variable {settings : Settings} {recipes : List Recipe}
  {sources : List (Except ParseFailure SourceFile)} {places next : Places}

/-! ### The steps of the workers -/

theorem sound_start : Sound settings recipes sources (sources.map fun _ => none) := by
  rw [Sound, List.forall₂_map_right_iff]
  exact List.forall₂_same.2 fun _ _ => .inl rfl

theorem Sound.step (h : Sound settings recipes sources places)
    (hstep : Treats settings recipes sources places next) :
    Sound settings recipes sources next := by
  obtain ⟨hsource, _, _⟩ := hstep
  rename_i index source
  refine List.forall₂_iff_get.2 ⟨by rw [List.length_set, h.length_eq], fun i hi hi' => ?_⟩
  rw [List.length_set] at hi'
  simp only [List.get_eq_getElem, List.getElem_set]
  split_ifs with heq
  · subst heq
    rw [List.getElem?_eq_getElem hi, Option.some.injEq] at hsource
    exact .inr (by rw [hsource])
  · exact (List.forall₂_iff_get.1 h).2 i hi hi'

theorem Sound.of_reaches (h : Reaches settings recipes sources places) :
    Sound settings recipes sources places := by
  induction h with
  | refl => exact sound_start
  | tail _ hstep ih => exact ih.step hstep

theorem Sound.outcomes (h : Sound settings recipes sources places) (hfull : none ∉ places) :
    places = (sources.map (runSource settings recipes)).map some := by
  induction h with
  | nil => rfl
  | @cons source place sources places hplace _ ih =>
      rw [List.mem_cons, not_or] at hfull
      rcases hplace with rfl | rfl
      · exact absurd rfl hfull.1
      · rw [ih hfull.2, List.map_cons, List.map_cons]

theorem Sound.progress (h : Sound settings recipes sources places) (hempty : none ∈ places) :
    ∃ next, Treats settings recipes sources places next := by
  obtain ⟨front, behind, hplaces, hfront⟩ := List.eq_append_cons_of_mem hempty
  have hlength : front.length < sources.length := by
    rw [h.length_eq, hplaces, List.length_append, List.length_cons]
    omega
  refine ⟨_, .source (List.getElem?_eq_getElem hlength) ?_ (.inr ?_)⟩
  · rw [hplaces]
    simp
  · rw [hplaces, List.take_left]
    exact hfront

theorem countP_treats (h : Treats settings recipes sources places next) :
    next.countP Option.isNone < places.countP Option.isNone := by
  obtain ⟨_, hempty, _⟩ := h
  obtain ⟨hindex, hnone⟩ := List.getElem?_eq_some_iff.1 hempty
  have hpositive : 0 < places.countP Option.isNone :=
    List.countP_pos_iff.2 ⟨none, hnone ▸ List.getElem_mem hindex, rfl⟩
  rw [List.countP_set hindex, hnone]
  exact Nat.sub_lt hpositive Nat.one_pos

theorem wellFounded_treats :
    WellFounded fun next places => Treats settings recipes sources places next :=
  Subrelation.wf countP_treats (measure (List.countP Option.isNone)).wf

theorem reaches_outcomes :
    Reaches settings recipes sources ((sources.map (runSource settings recipes)).map some) := by
  have hpart : ∀ done rest, sources = done ++ rest →
      Reaches settings recipes sources
        ((done.map (runSource settings recipes)).map some ++ rest.map fun _ => none) := by
    intro done
    induction done using List.reverseRecOn with
    | nil =>
        rintro rest rfl
        exact .refl
    | append_singleton done source ih =>
        rintro rest hsources
        rw [List.append_assoc, List.singleton_append] at hsources
        refine (ih _ hsources).tail ?_
        have hsource : sources[done.length]? = some source := by simp [hsources]
        have hstep : Treats settings recipes sources
            ((done.map (runSource settings recipes)).map some ++ (source :: rest).map fun _ => none)
            (((done.map (runSource settings recipes)).map some ++
              (source :: rest).map fun _ => none).set done.length
                (some (runSource settings recipes source))) :=
          .source hsource (by simp) (.inr (by simp))
        convert hstep using 1
        simp
  simpa using hpart sources [] (List.append_nil sources).symm

/-! ### Results -/

/-- Whichever worker is done first, the result of a run is the same. -/
theorem comesTo_iff {result : RunResult} :
    ComesTo settings recipes sources result ↔
      result = resultOf recipes (sources.map (runSource settings (runnable recipes))) := by
  constructor
  · rintro ⟨outcomes, hreaches, rfl⟩
    have hplaces := (Sound.of_reaches hreaches).outcomes (by simp)
    rw [(List.map_inj_right fun _ _ => Option.some.inj).1 hplaces]
  · rintro rfl
    exact ⟨_, reaches_outcomes, rfl⟩

theorem flatMap_refused (recipes : List Recipe) :
    (refused recipes).flatMap Recipe.validate = recipes.flatMap Recipe.validate := by
  induction recipes with
  | nil => rfl
  | cons r recipes ih =>
      rw [refused, List.filter_cons, List.flatMap_cons, ← ih]
      cases hr : r.validate with
      | nil => rfl
      | cons failure failures => simp [hr, refused]

theorem run_parallel (settings : Settings) (recipes : List Recipe)
    (sources : List (Except ParseFailure SourceFile)) {inParallel : Parallel}
    (horder : KeepsOrder inParallel) :
    run settings recipes sources inParallel =
      resultOf recipes (sources.map (runSource settings (runnable recipes))) := by
  rw [resultOf, flatMap_refused, run, horder, ite_self]
  rfl

theorem run_eq (settings : Settings) (recipes : List Recipe)
    (sources : List (Except ParseFailure SourceFile)) :
    run settings recipes sources =
      resultOf recipes (sources.map (runSource settings (runnable recipes))) :=
  run_parallel settings recipes sources fun _ _ => rfl

theorem runnable_runnable (recipes : List Recipe) :
    runnable (runnable recipes) = runnable recipes := by
  rw [runnable, runnable, List.filter_filter]
  simp only [Bool.and_self]

theorem successes_append {ε α : Type} (xs ys : List (Except ε α)) :
    successes (xs ++ ys) = successes xs ++ successes ys :=
  List.filterMap_append

theorem failuresOf_append {ε α : Type} (xs ys : List (Except ε α)) :
    failuresOf (xs ++ ys) = failuresOf xs ++ failuresOf ys :=
  List.filterMap_append

theorem run_append (settings : Settings) (recipes : List Recipe)
    (sources more : List (Except ParseFailure SourceFile)) :
    (run settings recipes (sources ++ more)).changes =
        (run settings recipes sources).changes ++ (run settings recipes more).changes ∧
      (run settings recipes (sources ++ more)).failures =
        (run settings recipes sources).failures ++ (run settings recipes more).failures := by
  simp only [run_eq, resultOf, List.map_append, successes_append, failuresOf_append, and_self]

theorem run_single (settings : Settings) (recipes : List Recipe)
    (source : Except ParseFailure SourceFile) :
    (run settings recipes [source]).changes.length +
      (run settings recipes [source]).failures.length = 1 := by
  rw [run_eq, List.map_singleton]
  cases runSource settings (runnable recipes) source <;> rfl

theorem run_eq_flatMap (settings : Settings) (recipes : List Recipe)
    (sources : List (Except ParseFailure SourceFile)) :
    (run settings recipes sources).changes =
        sources.flatMap (fun source => (run settings recipes [source]).changes) ∧
      (run settings recipes sources).failures =
        sources.flatMap fun source => (run settings recipes [source]).failures := by
  induction sources with
  | nil =>
      rw [run_eq]
      exact ⟨rfl, rfl⟩
  | cons source sources ih =>
      obtain ⟨hchanges, hfailures⟩ := run_append settings recipes [source] sources
      rw [List.singleton_append] at hchanges hfailures
      rw [List.flatMap_cons, List.flatMap_cons, ← ih.1, ← ih.2]
      exact ⟨hchanges, hfailures⟩

end

/-- A run treats each source by itself. Its workers come to an end, with an outcome for each source,
and to one result whether they treat files at the same time or in order; refused recipes have no
part in it but their failures. Treating files at the same time is what a run asks for, and all that is
asked of it is that it keeps their order. Each source has one item among the changes or the failures, which
stand in the order of the sources, and it is the item of a run on that source alone. -/
theorem run_treats_sources_apart (settings : Settings) (recipes : List Recipe)
    (sources : List (Except ParseFailure SourceFile)) :
    (∀ parallel result, ComesTo { settings with parallel } recipes sources result ↔
      result = run settings recipes sources) ∧
    (∀ parallel inParallel, KeepsOrder inParallel →
      run { settings with parallel } recipes sources inParallel = run settings recipes sources) ∧
    WellFounded (fun next places => Treats settings (runnable recipes) sources places next) ∧
    (∀ places, Reaches settings (runnable recipes) sources places →
      (∀ next, ¬ Treats settings (runnable recipes) sources places next) →
        ∃ outcomes, places = outcomes.map some ∧
          resultOf recipes outcomes = run settings recipes sources) ∧
    run settings recipes sources =
      { run settings (runnable recipes) sources with
        validation := (refused recipes).flatMap Recipe.validate } ∧
    (∀ source, (run settings recipes [source]).changes.length +
      (run settings recipes [source]).failures.length = 1) ∧
    (run settings recipes sources).changes =
      sources.flatMap (fun source => (run settings recipes [source]).changes) ∧
    (run settings recipes sources).failures =
      sources.flatMap (fun source => (run settings recipes [source]).failures) ∧
    ∀ more, (run settings recipes (sources ++ more)).changes =
        (run settings recipes sources).changes ++ (run settings recipes more).changes ∧
      (run settings recipes (sources ++ more)).failures =
        (run settings recipes sources).failures ++ (run settings recipes more).failures := by
  refine ⟨fun parallel result => ?_, fun parallel inParallel horder => ?_, wellFounded_treats,
    fun places hreaches hstuck => ?_, ?_,
    run_single settings recipes, (run_eq_flatMap settings recipes sources).1,
    (run_eq_flatMap settings recipes sources).2, run_append settings recipes sources⟩
  · -- How files are treated is no part of what a recipe makes of one.
    rw [comesTo_iff, run_eq]
    rfl
  · rw [run_parallel _ recipes sources horder, run_eq]
    rfl
  · have hsound := Sound.of_reaches hreaches
    have hfull : none ∉ places := fun hempty => by
      obtain ⟨next, hnext⟩ := hsound.progress hempty
      exact hstuck next hnext
    exact ⟨_, hsound.outcomes hfull, (run_eq settings recipes sources).symm⟩
  · rw [run_eq, run_eq, runnable_runnable]
    rfl

end Codemod.Engine
