import Codemod.Java.Hooks
import Codemod.Recipe.Basic
import Codemod.Text.Blank
import Codemod.Text.Split
import Codemod.Text.Lines

/-!
The recipe that removes semicolons on which nothing depends: empty statements in blocks, empty
members of types, the terminator of enumeration constants that no member follows, and the
terminator of the last resource of a try statement. Comments in front of what is removed move
to what follows it.
-/

namespace Codemod.Recipes.Semicolons

open Codemod.Tree

/-- Comments out of removed trivia that wait for the element behind it, and the indentation
that stood behind the last of them. -/
structure Carried where
  text : List Char := []
  indent : List Char := []

namespace Carried

/-- Takes over the comments of removed trivia, up to its last line feed. -/
def take (carried : Carried) (trivia : String) : Carried :=
  if Text.holdsComment trivia then
    match Text.splitLast '\n' trivia.toList with
    | some (front, indent) => ⟨carried.text ++ front, indent⟩
    | none => { carried with text := carried.text ++ Text.trimRight trivia.toList }
  else carried

/-- Two slashes stand next to each other. -/
def hasLineComment : List Char → Bool
  | '/' :: '/' :: _ => true
  | _ :: rest => hasLineComment rest
  | [] => false

/-- Trivia with the comments in front. A comment up to the end of the line keeps its line
break, so that it does not swallow what follows. -/
def onto (carried : Carried) (trivia : String) : String :=
  let next := trivia.toList
  if hasLineComment (Text.lastLine carried.text) && next.head? != some '\n' then
    String.ofList (carried.text ++ '\n' :: carried.indent
      ++ next.dropWhile fun c => c = ' ' || c = '\t')
  else String.ofList (carried.text ++ next)

end Carried

/-- The child is a semicolon by itself. -/
def isEmpty (child : Element) : Bool :=
  child.node?.any fun n => n.kind == .java .empty

/-- The children without those that are empty, whose comments move on. -/
def dropEmpty (carried : Carried) : List Element → List Element
  | [] => []
  | child :: rest =>
      if isEmpty child then dropEmpty (carried.take child.lead) rest
      else if carried.text.isEmpty then child :: dropEmpty carried rest
      else child.withLead (carried.onto child.lead) :: dropEmpty {} rest

/-- The node without its empty children, if it has any. -/
def withoutEmpty (n : Node) : Option Node :=
  if n.children.any isEmpty then some { n with children := dropEmpty {} n.children } else none

/-- The node with the comments of removed trivia in front of the child behind an index. -/
def carryAfter (n : Node) (index : Nat) (removed : String) : Node :=
  let carried := Carried.take {} removed
  match n.children[index + 1]? with
  | some next =>
      if carried.text.isEmpty then n
      else n.withChild (index + 1) (next.withLead (carried.onto next.lead))
  | none => n

/-- The node without a marker. -/
def unmarked (n : Node) (kind : MarkerKind) : Node :=
  { n with markers := n.markers.erase kind }

/-- The constants of an enumeration without their terminator, if they have one, and the trivia
that goes with it. -/
def withoutTerminator (constants : Node) : Option (Node × String) :=
  match constants.children.getLast? with
  | some (.node last) =>
      (last.markers.get? .semicolon).map fun terminator =>
        ( { constants with
            children := constants.children.dropLast ++ [.node (unmarked last .semicolon)] },
          terminator.before )
  | some (.token t) =>
      if t.text = ";" then
        some ({ constants with lead := "", children := constants.children.dropLast },
          constants.lead)
      else none
  | none => none

/-- The body of an enumeration without the terminator of its constants, if no member
follows them. -/
def withoutConstantsTerminator (body : Node) : Option Node :=
  match body.positionOf? (.java .enumConstants) with
  | none => none
  | some index =>
      if (body.children.drop (index + 1)).any fun e => e.node?.isSome then none
      else
        match body.children[index]? with
        | some (.node constants) =>
            (withoutTerminator constants).map fun (trimmed, removed) =>
              carryAfter (body.withChild index (.node trimmed)) index removed
        | _ => none

/-- The index of the last resource. -/
def lastResource? (children : List Element) : Option Nat :=
  lastIndex? (fun e => e.node?.any fun n => n.kind == .java .resource) children

/-- The resources of a try statement without the terminator of the last one. -/
def withoutResourceTerminator (resources : Node) : Option Node := do
  let index ← lastResource? resources.children
  let resource ← (← resources.children[index]?).node?
  let terminator ← resource.markers.get? .semicolon
  some (carryAfter (resources.withChild index (.node (unmarked resource .semicolon))) index
    terminator.before)

/-- An enumeration's body without empty members and without a needless terminator. -/
def trimEnumBody (body : Node) : Option Node :=
  let cleared := withoutEmpty body
  withoutConstantsTerminator (cleared.getD body) <|> cleared

/-- What is made of a node of this kind; none if it stays. -/
def trim (kind : Java.Kind) (n : Node) : Option Node :=
  match kind with
  | .block | .classBody => withoutEmpty n
  | .enumBody => trimEnumBody n
  | .tryResources => withoutResourceTerminator n
  | _ => none

/-- The visitor that removes needless semicolons. -/
def visitor : Visitor Unit :=
  Java.Hooks.visitor { leave := fun kind n _ s => (trim kind n, s) }

end Semicolons

/-- Removes needless semicolons. -/
def removeExtraSemicolons : Recipe where
  name := "RemoveExtraSemicolons"
  description := "Remove empty statements and redundant enum and try-resource terminators."
  pass? := some (Recipe.passOf Semicolons.visitor ())

end Codemod.Recipes
