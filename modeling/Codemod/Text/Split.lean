/-!
Cutting a list of characters at a separator. Joining the parts with the separator gives the
list back.
-/

namespace Codemod.Text

/-- The parts of the characters between the separators, at least one. -/
def splitOn (separator : Char) : List Char → List (List Char)
  | [] => [[]]
  | c :: rest =>
      if c = separator then [] :: splitOn separator rest
      else
        match splitOn separator rest with
        | [] => [[c]]
        | part :: parts => (c :: part) :: parts

/-- What stands in front of the last separator, and what stands behind it. -/
def splitLast (separator : Char) : List Char → Option (List Char × List Char)
  | [] => none
  | c :: rest =>
      match splitLast separator rest with
      | some (front, behind) => some (c :: front, behind)
      | none => if c = separator then some ([], rest) else none

/-- What stands in front of the first separator, and what stands behind it. -/
def splitFirst (separator : Char) : List Char → Option (List Char × List Char)
  | [] => none
  | c :: rest =>
      if c = separator then some ([], rest)
      else (splitFirst separator rest).map fun (front, behind) => (c :: front, behind)

/-- The parts with the separator between them. -/
def join (separator : Char) : List (List Char) → List Char
  | [] => []
  | [part] => part
  | part :: parts => part ++ separator :: join separator parts

theorem splitOn_ne_nil (separator : Char) (cs : List Char) : splitOn separator cs ≠ [] := by
  cases cs with
  | nil => simp [splitOn]
  | cons c rest =>
      simp only [splitOn]
      split
      · simp
      · split <;> simp

theorem join_splitOn (separator : Char) (cs : List Char) :
    join separator (splitOn separator cs) = cs := by
  induction cs with
  | nil => rfl
  | cons c rest ih =>
      simp only [splitOn]
      split
      · rename_i hc
        cases h : splitOn separator rest with
        | nil => exact absurd h (splitOn_ne_nil separator rest)
        | cons part parts => simp [join, ← h, ih, hc]
      · split
        · rename_i h
          exact absurd h (splitOn_ne_nil separator rest)
        · rename_i part parts h
          rw [h] at ih
          cases parts with
          | nil => simp_all [join]
          | cons next parts => simp_all [join]

theorem not_mem_of_splitLast {separator : Char} {cs : List Char}
    (h : splitLast separator cs = none) : separator ∉ cs := by
  induction cs with
  | nil => simp
  | cons c rest ih =>
      simp only [splitLast] at h
      split at h
      · cases h
      · rename_i hrest
        split at h
        · cases h
        · rename_i hc
          simp [Ne.symm hc, ih hrest]

theorem splitLast_eq_some {separator : Char} {cs front behind : List Char}
    (h : splitLast separator cs = some (front, behind)) :
    cs = front ++ separator :: behind := by
  induction cs generalizing front with
  | nil => simp [splitLast] at h
  | cons c rest ih =>
      simp only [splitLast] at h
      split at h
      · rename_i front' behind' hr
        simp only [Option.some.injEq, Prod.mk.injEq] at h
        obtain ⟨rfl, rfl⟩ := h
        simp [ih hr]
      · split at h
        · simp_all
        · simp at h

end Codemod.Text
