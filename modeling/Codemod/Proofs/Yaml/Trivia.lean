import Codemod.Proofs.Yaml.RoundTrip
import Codemod.Text.Lines

/-!
Blanks, line breaks and comments as what a scanner of two states accepts: outside a comment and in
one, which ends with its line. The trivia that a parser splits off is what is accepted, and it ends
in front of a character that is not.
-/

namespace Codemod.Yaml

/-- Whether a comment is open behind some characters, where `comment` tells whether one is open in
front of them; none if they are no trivia. -/
def commentBehind : (comment : Bool) → List Char → Option Bool
  | comment, [] => some comment
  | true, c :: rest => commentBehind (c != '\n') rest
  | false, c :: rest =>
      if isSpace c || isBreak c then commentBehind false rest
      else if c = '#' then commentBehind true rest
      else none

/-- The characters are trivia in front of something. -/
def IsTrivia (cs : List Char) : Prop :=
  (commentBehind false cs).isSome = true

/-- What begins here is no trivia. -/
def StopsTrivia : List Char → Prop
  | [] => True
  | c :: _ => isSpace c = false ∧ isBreak c = false ∧ c ≠ '#'

theorem commentBehind_append (comment : Bool) (cs ds : List Char) :
    commentBehind comment (cs ++ ds) =
      (commentBehind comment cs).bind fun comment => commentBehind comment ds := by
  fun_induction commentBehind comment cs with
  | case1 => rfl
  | case2 c rest ih => rw [List.cons_append, commentBehind, ih]
  | case3 c rest h ih => rw [List.cons_append, commentBehind, if_pos h, ih]
  | case4 rest h ih => rw [List.cons_append, commentBehind, if_neg h, if_pos rfl, ih]
  | case5 c rest h hsign => rw [List.cons_append, commentBehind, if_neg h, if_neg hsign]; rfl

/-- Behind a line feed no comment is open. -/
theorem commentBehind_break (comment : Bool) (cs : List Char) :
    commentBehind comment ('\n' :: cs) = commentBehind false cs := by
  cases comment <;> rfl

theorem commentBehind_open {cs : List Char} (h : '\n' ∉ cs) : commentBehind true cs = some true := by
  induction cs with
  | nil => rfl
  | cons c cs ih =>
      rw [List.mem_cons, not_or] at h
      rw [commentBehind, (bne_iff_ne ..).2 (Ne.symm h.1), ih h.2]

/-- A line of trivia behind which no comment is open holds none. -/
theorem space_of_closed {cs : List Char} (h : commentBehind false cs = some false)
    (hline : '\n' ∉ cs) : ∀ c ∈ cs, (isSpace c || isBreak c) = true := by
  induction cs with
  | nil => nofun
  | cons c cs ih =>
      rw [List.mem_cons, not_or] at hline
      rw [commentBehind] at h
      split_ifs at h with hspace
      · exact List.forall_mem_cons.2 ⟨hspace, ih h hline.2⟩
      · rw [commentBehind_open hline.2] at h
        cases h

theorem commentBehind_trivia (comment : Bool) (cs : List Char) :
    StopsTrivia (trivia comment cs).2 ∧ ∃ behind,
      commentBehind comment (trivia comment cs).1 = some behind ∧
        ((trivia comment cs).2 ≠ [] → behind = false) := by
  fun_induction trivia comment cs with
  | case1 comment => exact ⟨trivial, comment, rfl, fun h => absurd rfl h⟩
  | case2 c rest taken left heq ih =>
      rw [heq] at ih
      exact ih
  | case3 comment c rest hcomment hblank taken left heq ih =>
      obtain rfl : comment = false := by simpa using hcomment
      rw [heq] at ih
      rw [commentBehind, if_pos hblank]
      exact ih
  | case4 comment rest hcomment taken left heq hblank ih =>
      obtain rfl : comment = false := by simpa using hcomment
      rw [heq] at ih
      rw [commentBehind, if_neg hblank, if_pos rfl]
      exact ih
  | case5 comment c rest hcomment hblank hsign =>
      obtain rfl : comment = false := by simpa using hcomment
      rw [Bool.or_eq_true, not_or] at hblank
      exact ⟨⟨by simpa using hblank.1, by simpa using hblank.2, hsign⟩, false, rfl, fun _ => rfl⟩

theorem trivia_of_commentBehind {comment : Bool} {cs rest : List Char} {behind : Bool}
    (h : commentBehind comment cs = some behind) (hrest : StopsTrivia rest)
    (hbehind : rest ≠ [] → behind = false) : trivia comment (cs ++ rest) = (cs, rest) := by
  fun_induction commentBehind comment cs with
  | case1 comment =>
      cases rest with
      | nil => rfl
      | cons c rest =>
          obtain rfl : comment = false := (Option.some.inj h).trans (hbehind (by simp))
          obtain ⟨hspace, hbreak, hsign⟩ := hrest
          simp [trivia, hspace, hbreak, hsign]
  | case2 c cs ih => simp [trivia, ih h]
  | case3 c cs hblank ih =>
      rw [List.cons_append, trivia, if_neg (by simp), if_pos hblank, ih h]
  | case4 cs hblank ih =>
      rw [List.cons_append, trivia, if_neg (by simp), if_neg hblank, if_pos rfl, ih h]
  | case5 => cases h

theorem isTrivia_skip {p next : Place} {lead : List Char} (h : p.skip = .ok (lead, next)) :
    IsTrivia lead := by
  simp only [Place.skip] at h
  split_ifs at h
  cases h
  obtain ⟨_, behind, hbehind, _⟩ := commentBehind_trivia false p.ahead
  rw [IsTrivia, hbehind]
  rfl

theorem sign_of_slash {cs : List Char} (h : IsTrivia cs) (hslash : '/' ∈ cs) : '#' ∈ cs := by
  unfold IsTrivia at h
  generalize hcomment : false = comment at h
  fun_induction commentBehind comment cs with
  | case1 => cases hslash
  | case2 => cases hcomment
  | case3 c rest hblank ih =>
      rcases List.mem_cons.1 hslash with rfl | hslash
      · cases hblank
      · exact List.mem_cons_of_mem _ (ih hslash rfl h)
  | case4 => exact List.mem_cons_self
  | case5 => cases h

/-- In trivia a comment begins with its sign only. -/
theorem holdsComment_iff {lead : String} (h : IsTrivia lead.toList) :
    Text.holdsComment lead = true ↔ '#' ∈ lead.toList := by
  have hopens : ∀ cs, '#' ∈ cs → Text.opensComment cs = true := by
    intro cs hsign
    fun_induction Text.opensComment cs with
    | case1 => rfl
    | case2 => rfl
    | case3 => rfl
    | case4 c rest hne _ _ ih =>
        rcases List.mem_cons.1 hsign with rfl | hsign
        · exact absurd rfl hne
        · exact ih hsign
    | case5 => cases hsign
  have hslash : ∀ cs, Text.opensComment cs = true → '#' ∈ cs ∨ '/' ∈ cs := by
    intro cs hopens
    fun_induction Text.opensComment cs with
    | case1 => exact .inl List.mem_cons_self
    | case2 => exact .inr List.mem_cons_self
    | case3 => exact .inr List.mem_cons_self
    | case4 c rest _ _ _ ih =>
        exact (ih hopens).imp (List.mem_cons_of_mem c) (List.mem_cons_of_mem c)
    | case5 => cases hopens
  refine ⟨fun hholds => ?_, hopens _⟩
  rcases hslash _ hholds with hsign | hslash
  · exact hsign
  · exact sign_of_slash h hslash

end Codemod.Yaml
