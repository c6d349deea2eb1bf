import Codemod.Proofs.Yaml.Pieces
import Codemod.Proofs.Yaml.Written

/-!
Two keys without quotes with a dot between them are a key again, unless the three characters of a
document's end come out of it.
-/

namespace Codemod.Yaml

open Codemod.Tree

/-! ### Signs -/

theorem startsMarker_front {m : String} {xs ys : List Char} (hlength : m.toList.length ≤ xs.length)
    (h : startsMarker m (xs ++ ys) = true) : startsMarker m xs = true := by
  simp only [startsMarker, Bool.and_eq_true, List.isPrefixOf_iff_prefix] at h ⊢
  obtain ⟨hsign, hends⟩ := h
  refine ⟨List.prefix_of_prefix_length_le hsign (List.prefix_append xs ys) hlength, ?_⟩
  rw [List.drop_append_of_le_length hlength] at hends
  cases hdrop : xs.drop m.toList.length with
  | nil => rfl
  | cons c cs =>
      rw [hdrop] at hends
      exact hends

theorem startsMarker_dot {m : String} (hm : '.' ∉ m.toList) {xs more : List Char}
    (h : startsMarker m (xs ++ '.' :: more) = true) (rest : List Char) :
    startsMarker m (xs ++ rest) = true := by
  rw [startsMarker] at h ⊢
  generalize m.toList = sign at hm h
  induction sign generalizing xs with
  | nil =>
      cases xs with
      | nil => simp [endsIndicator, isSpace, isBreak] at h
      | cons => exact h
  | cons a sign ih =>
      rw [List.mem_cons, not_or] at hm
      cases xs with
      | nil => simp [Ne.symm hm.1] at h
      | cons x xs =>
          simp only [List.cons_append, List.isPrefixOf_cons_cons, List.length_cons,
            List.drop_succ_cons, Bool.and_assoc] at h ⊢
          rw [Bool.and_eq_true] at h ⊢
          exact ⟨h.1, ih hm.2 h.2⟩

theorem supported_of_supported {c : Char} {cs ds : List Char} (h : unsupported? false (c :: ds) = none)
    (hmarkers : ∀ m ∈ ["---", "..."], startsMarker m (c :: cs) = false)
    (hindicator : endsIndicator cs = true → endsIndicator ds = true) :
    unsupported? false (c :: cs) = none := by
  unfold unsupported? at h ⊢
  rw [hmarkers "---" (by simp), hmarkers "..." (by simp)]
  split_ifs at h
  split at h <;> simp_all

theorem supported_join {raw raw' rest : List Char} (hne : raw ≠ []) (hne' : raw' ≠ [])
    (h : unsupported? false (raw ++ rest) = none)
    (hmarker : startsMarker "..." (raw ++ '.' :: raw') = false) (behind : List Char) :
    unsupported? false (raw ++ '.' :: raw' ++ behind) = none := by
  have hdashes : startsMarker "---" (raw ++ '.' :: raw' ++ behind) = false := by
    refine Bool.eq_false_iff.2 fun hsign => ?_
    rw [List.append_assoc, List.cons_append] at hsign
    unfold unsupported? at h
    rw [startsMarker_dot (by decide) hsign rest] at h
    cases h
  have hdots : startsMarker "..." (raw ++ '.' :: raw' ++ behind) = false := by
    refine Bool.eq_false_iff.2 fun hsign => ?_
    rw [startsMarker_front ?_ hsign] at hmarker
    · cases hmarker
    · have hlength := List.length_pos_iff.2 hne
      have hlength' := List.length_pos_iff.2 hne'
      rw [List.length_append, List.length_cons, show "...".toList.length = 3 from rfl]
      omega
  obtain ⟨c, raw, rfl⟩ := List.exists_cons_of_ne_nil hne
  refine @supported_of_supported c _ (raw ++ rest) h ?_ ?_
  · simp only [List.mem_cons, List.not_mem_nil, or_false]
    rintro m (rfl | rfl)
    · exact hdashes
    · exact hdots
  · cases raw with
    | nil => simp [endsIndicator, isSpace, isBreak]
    | cons => exact id

/-! ### Keys -/

theorem keyRun_dot {afterSpace : Bool} {raw rest : List Char}
    (h : raw <+: keyRun afterSpace (raw ++ rest)) (more : List Char) :
    keyRun afterSpace (raw ++ '.' :: more) = raw ++ '.' :: keyRun false more := by
  induction raw generalizing afterSpace with
  | nil => simp [keyRun, isBreak, isSpace]
  | cons c raw ih =>
      rw [List.cons_append, keyRun] at h
      split_ifs at h with hstop
      · simp at h
      · have hindicator : endsIndicator (raw ++ '.' :: more) = true →
            endsIndicator (raw ++ rest) = true := by
          cases raw with
          | nil => simp [endsIndicator, isSpace, isBreak]
          | cons => exact id
        have hgo : ¬(isBreak c || afterSpace && decide (c = '#') ||
            decide (c = ':') && endsIndicator (raw ++ '.' :: more)) = true := by
          simp only [Bool.or_eq_true, Bool.and_eq_true, not_or, not_and] at hstop ⊢
          exact ⟨hstop.1, fun hc hends => hstop.2 hc (hindicator hends)⟩
        rw [List.cons_append, keyRun, if_neg hgo, ih (List.cons_prefix_cons.1 h).2, List.cons_append]

theorem KeyForm.plain {raw gap : List Char} (h : KeyForm raw gap)
    (hplain : isQuoted (String.ofList raw) = false) : startsQuote raw = false := by
  obtain ⟨q, _, r, left, hread, _⟩ := h.reads (p := Place.start (raw ++ (gap ++ [':']))) rfl
    fun _ => rfl
  obtain ⟨c, rest, hraw, hdouble, hsingle⟩ := keyText_key hread hplain
  rw [String.toList_ofList] at hraw
  simp [hraw, startsQuote, hdouble, hsingle]

theorem KeyForm.run {raw gap : List Char} (h : KeyForm raw gap) (hplain : startsQuote raw = false)
    {rest : List Char} (hends : endsIndicator rest = true) :
    let cs := raw ++ (gap ++ ':' :: rest)
    keyRun false cs = raw ++ gap ∧ unsupported? false cs = none ∧ (∀ c ∈ gap, isSpace c = true) ∧
      ∀ c ∈ raw.getLast?, isSpace c = false := by
  intro cs
  obtain ⟨q, hq⟩ := h.reads (p := Place.start cs) rfl fun _ => hends
  obtain ⟨_, hne, hgap, _⟩ := hq.parts
  obtain ⟨hsupported, r, left, hread, hspaces, _⟩ := hq
  have hplain' : startsQuote (Place.start cs).ahead = false := by
    rw [Place.start, startsQuote_append hne, hplain]
  obtain ⟨gap', rest', hcs, hrun, hgap', hlast, _⟩ := (key_plain_eq_ok hplain').1 hread
  have hblank : ∀ {blanks cs : List Char}, (∀ c ∈ blanks, isSpace c = true) →
      spaces (blanks ++ ':' :: cs) = (blanks, ':' :: cs) := fun hblanks =>
    spaces_eq_iff.2 ⟨rfl, hblanks, by simp [isSpace]⟩
  have hsame := (hblank hgap).symm.trans
    ((congrArg spaces (List.append_cancel_left hcs)).trans (hblank hgap'))
  refine ⟨?_, hsupported, hgap, hlast⟩
  rw [(Prod.mk.inj hsame).1]
  exact hrun

theorem keyForm_join {raw gap raw' gap' : List Char} (h : KeyForm raw gap) (h' : KeyForm raw' gap')
    (hplain : startsQuote raw = false) (hplain' : startsQuote raw' = false)
    (hmarker : startsMarker "..." (raw ++ '.' :: raw') = false) :
    KeyForm (raw ++ '.' :: raw') gap' := by
  refine ⟨by simp, fun rest => ?_, fun {p rest} hahead hends => ?_⟩
  · rw [List.append_assoc]
    exact h.stops _
  · have hquote : startsQuote (raw ++ '.' :: raw') = false := by
      rw [startsQuote_append h.ne_nil, hplain]
    obtain ⟨hrun, hsupported, _, _⟩ := @KeyForm.run raw gap h hplain [] rfl
    obtain ⟨hrun', _, hgap', hlast'⟩ := h'.run hplain' (hends hquote)
    have hcs : raw ++ '.' :: raw' ++ (gap' ++ ':' :: rest) =
        raw ++ '.' :: (raw' ++ (gap' ++ ':' :: rest)) := by simp
    have hjoined : keyRun false p.ahead = raw ++ '.' :: raw' ++ gap' := by
      rw [hahead, hcs, keyRun_dot (hrun ▸ List.prefix_append raw gap), hrun']
      simp
    have hsupported' : unsupported? false p.ahead = none := by
      rw [hahead]
      exact supported_join h.ne_nil h'.ne_nil hsupported hmarker _
    refine ⟨_, hsupported', p.move (raw ++ '.' :: raw') (gap' ++ ':' :: rest), rest,
      (key_plain_eq_ok ?_).2 ⟨gap', rest, hahead, hjoined, hgap', ?_, by simp, rfl⟩,
      spaces_eq_iff.2 ⟨rfl, hgap', by simp [isSpace]⟩, rfl⟩
    · rw [hahead, startsQuote_append (by simp), hquote]
    · obtain ⟨c, cs, rfl⟩ := List.exists_cons_of_ne_nil h'.ne_nil
      simpa using hlast'

end Codemod.Yaml
