import Codemod.Tree.Basic

/-!
The text of a tree. The delimiters of a list are not stored in it: they follow from the
position of each item and the markers it carries, so that adding, removing or moving items
leaves no delimiter behind.
-/

namespace Codemod.Tree

/-- The trivia in front of a delimiter, and the delimiter. -/
def Marker.print (marker : Marker) (delimiter : Delimiter) : String :=
  marker.before ++ delimiter.text

/-- The separator behind an item that another item follows. -/
def printBetween (markers : Markers) (separator : Delimiter) : String :=
  match markers.get? .separator <|> markers.get? separator.marker with
  | some marker => marker.print separator
  | none => separator.text

/-- A delimiter behind the last item, if the item is marked with it. -/
def printMarked (markers : Markers) (delimiter : Delimiter) : String :=
  match markers.get? delimiter.marker with
  | some marker => marker.print delimiter
  | none => ""

/-- The delimiters behind the last item. -/
def printBehind (markers : Markers) (separator : Delimiter) (closer : Option Delimiter) :
    String :=
  printMarked markers separator ++ (closer.map (printMarked markers)).getD ""

/-- The delimiters that a layout puts behind a child, given the children after it. -/
def Layout.delimiters (layout : Layout) (child : Element) (rest : List Element) : String :=
  match layout, child with
  | .separated separator closer, .node item =>
      if rest.any fun e => e.node?.isSome then printBetween item.markers separator
      else printBehind item.markers separator closer
  | _, _ => ""

/-- The trivia in front of a token, and its text. -/
def Token.print (token : Token) : String :=
  token.lead ++ token.text

mutual

/-- The text of a node. -/
def Node.print : Node → String
  | ⟨kind, lead, children, _, _⟩ => lead ++ Node.printList kind.layout children

/-- The text of a child. -/
def Element.print : Element → String
  | .node n => n.print
  | .token t => t.print

/-- The text of some children in a layout. -/
def Node.printList (layout : Layout) : List Element → String
  | [] => ""
  | e :: es => e.print ++ layout.delimiters e es ++ Node.printList layout es

end

end Codemod.Tree
