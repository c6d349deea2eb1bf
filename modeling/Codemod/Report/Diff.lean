import Codemod.Text.Lines

/-!
Unified differences of two texts. Lines are kept, removed or added so that as many as possible
are kept; changes are shown with three kept lines around them.
-/

namespace Codemod.Report

/-- A line with its end. -/
abbrev Line := List Char

/-- What becomes of a line. -/
inductive Edit where
  | keep (line : Line)
  | remove (line : Line)
  | add (line : Line)
deriving DecidableEq, Repr

namespace Edit

/-- The line. -/
def line : Edit → Line
  | keep line | remove line | add line => line

/-- The character in front of the line. -/
def sign : Edit → Char
  | keep _ => ' '
  | remove _ => '-'
  | add _ => '+'

/-- The line is not kept. -/
def isChange : Edit → Bool
  | keep _ => false
  | remove _ | add _ => true

/-- The line stands in the old text. -/
def isOld : Edit → Bool
  | keep _ | remove _ => true
  | add _ => false

/-- The line stands in the new text. -/
def isNew : Edit → Bool
  | keep _ | add _ => true
  | remove _ => false

end Edit

/-- Edits that turn some lines into others, and the number of lines that they keep. -/
structure Script where
  kept : Nat := 0
  edits : List Edit := []
deriving DecidableEq, Repr, Inhabited

namespace Script

/-- The script with a kept line in front. -/
def keep (line : Line) (s : Script) : Script :=
  ⟨s.kept + 1, .keep line :: s.edits⟩

/-- The script with a removed line in front. -/
def remove (line : Line) (s : Script) : Script :=
  ⟨s.kept, .remove line :: s.edits⟩

/-- The script with an added line in front. -/
def add (line : Line) (s : Script) : Script :=
  ⟨s.kept, .add line :: s.edits⟩

end Script

/-- The scripts that turn no lines into each end of the new lines. -/
def addingScripts : List Line → List Script
  | [] => [{}]
  | y :: ys =>
      let shorter := addingScripts ys
      (shorter.headD {}).add y :: shorter

/-- The scripts that turn a line and those behind it into each end of the new lines, given
those for the lines behind it. -/
def scriptsFrom (x : Line) : List Line → List Script → List Script
  | [], below => [(below.headD {}).remove x]
  | y :: ys, below =>
      let shorter := scriptsFrom x ys below.tail
      let removing := below.headD {}
      let adding := shorter.headD {}
      let best :=
        if x = y then (below.tail.headD {}).keep x
        else if adding.kept ≤ removing.kept then removing.remove x
        else adding.add y
      best :: shorter

/-- A script from the old lines to the new ones that keeps as many as possible. -/
def bestScript (old new : List Line) : Script :=
  (old.foldr (fun x below => scriptsFrom x new below) (addingScripts new)).headD {}

/-- The edits with the removed lines of each change in front of the added ones. -/
def removedFirst (added : List Edit) : List Edit → List Edit
  | [] => added
  | .keep line :: rest => added ++ .keep line :: removedFirst [] rest
  | .remove line :: rest => .remove line :: removedFirst added rest
  | .add line :: rest => removedFirst (added ++ [.add line]) rest

/-- The number of kept lines that are shown on either side of a change. -/
def radius : Nat :=
  3

/-- For each edit, whether it is a change or follows one closely, where `left` more kept lines
are still close. -/
def closeBehind (left : Nat) : List Edit → List Bool
  | [] => []
  | e :: rest =>
      if e.isChange then true :: closeBehind radius rest
      else
        match left with
        | 0 => false :: closeBehind 0 rest
        | left + 1 => true :: closeBehind left rest

/-- For each edit, whether it is a change or stands close to one. -/
def shown (edits : List Edit) : List Bool :=
  List.zipWith (· || ·) (closeBehind 0 edits) (closeBehind 0 edits.reverse).reverse

/-- Edits that are shown together, and the number of lines in front of them in either text. -/
structure Hunk where
  oldStart : Nat
  newStart : Nat
  edits : List Edit
deriving DecidableEq, Repr

/-- The hunks of edits that are marked as shown, where `current` collects one. -/
def hunks (old new : Nat) (current : Option Hunk) : List (Edit × Bool) → List Hunk
  | [] => current.toList
  | (e, isShown) :: rest =>
      let old' := if e.isOld then old + 1 else old
      let new' := if e.isNew then new + 1 else new
      if isShown then
        let hunk := current.getD ⟨old, new, []⟩
        hunks old' new' (some { hunk with edits := hunk.edits ++ [e] }) rest
      else current.toList ++ hunks old' new' none rest

/-- The lines from one on, as a hunk's head states them: the first line, and their number unless
it is one. No lines are stated behind the line in front of them. -/
def rangeText (start count : Nat) : String :=
  match count with
  | 0 => toString start ++ ",0"
  | 1 => toString (start + 1)
  | n => toString (start + 1) ++ "," ++ toString n

/-- An edit with its sign and its line's end. -/
def Edit.render (e : Edit) : String :=
  let text := String.ofList (e.sign :: e.line)
  if Text.isTerminated e.line then text else text ++ "\n\\ No newline at end of file\n"

/-- A hunk under its head. -/
def Hunk.render (h : Hunk) : String :=
  "@@ -" ++ rangeText h.oldStart (h.edits.countP Edit.isOld)
    ++ " +" ++ rangeText h.newStart (h.edits.countP Edit.isNew) ++ " @@\n"
    ++ String.join (h.edits.map Edit.render)

/-- The unified difference of two texts under their names; nothing for equal texts. -/
def unifiedDiff (oldName newName old new : String) : String :=
  let script := bestScript (Text.lines old.toList) (Text.lines new.toList)
  let edits := removedFirst [] script.edits
  match hunks 0 0 none (edits.zip (shown edits)) with
  | [] => ""
  | all =>
      "--- " ++ oldName ++ "\n+++ " ++ newName ++ "\n" ++ String.join (all.map Hunk.render)

end Codemod.Report
