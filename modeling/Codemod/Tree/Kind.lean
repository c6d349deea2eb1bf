import Codemod.Java.Kind

/-!
The kinds of node of both languages together, and how the children of each are joined when
they are printed. The delimiters of a list are no children of it: each item records the delimiter that
it was written with, and the printer derives the rest from the item's position. The main statements say
what `put` and `erase` do to a look-up.
-/

namespace Codemod.Tree

/-- Which delimiter a marker records. -/
inductive MarkerKind where
  | semicolon
  | comma
  | separator
deriving DecidableEq, Repr

/-- A delimiter observed behind an item, with the trivia in front of the delimiter.

A semicolon or comma stays with its item wherever the item moves. A separator keeps only
the spacing in front of the delimiter between two items, and prints nothing once the item
ends its list. -/
structure Marker where
  kind : MarkerKind
  before : String := ""
deriving DecidableEq, Repr

/-- The markers of an item, in the order in which they were put. -/
abbrev Markers := List Marker

namespace Markers

/-- The marker of a kind. -/
def get? (markers : Markers) (kind : MarkerKind) : Option Marker :=
  markers.find? fun m => m.kind == kind

/-- There is a marker of a kind. -/
def has (markers : Markers) (kind : MarkerKind) : Bool :=
  (markers.get? kind).isSome

/-- The markers of all other kinds. -/
def erase (markers : Markers) (kind : MarkerKind) : Markers :=
  markers.filter fun m => m.kind != kind

/-- Adds a marker at the end, in place of one of the same kind. -/
def put (markers : Markers) (marker : Marker) : Markers :=
  markers.erase marker.kind ++ [marker]

theorem get?_erase_self (markers : Markers) (kind : MarkerKind) :
    (markers.erase kind).get? kind = none := by
  simp [get?, erase, List.find?_filter]

theorem get?_erase_of_ne (markers : Markers) {kind other : MarkerKind} (h : other ≠ kind) :
    (markers.erase kind).get? other = markers.get? other := by
  simp only [get?, erase, List.find?_filter]
  congr 1
  funext m
  by_cases hm : m.kind = other <;> simp_all

theorem get?_put_self (markers : Markers) (marker : Marker) :
    (markers.put marker).get? marker.kind = some marker := by
  have h := get?_erase_self markers marker.kind
  simp only [get?] at h
  simp [get?, put, List.find?_append, h]

theorem get?_put_of_ne (markers : Markers) (marker : Marker) {other : MarkerKind}
    (h : other ≠ marker.kind) : (markers.put marker).get? other = markers.get? other := by
  have hne := get?_erase_of_ne markers h
  simp only [get?] at hne
  simp [get?, put, List.find?_append, hne, Ne.symm h]

end Markers

end Codemod.Tree

namespace Codemod.Yaml

/-- What a node of a YAML tree stands for. -/
inductive Kind where
  /-- An optional `---`, at most one mapping, and the end of the text. -/
  | document
  /-- Entries only; each entry carries its own leading trivia. -/
  | mapping
  /-- A key, a colon, and a scalar or a nested mapping. -/
  | entry
  /-- A single text token, possibly empty. -/
  | scalar
deriving DecidableEq, Repr

end Codemod.Yaml

namespace Codemod.Tree

/-- The kind of a node in either language. -/
inductive Kind where
  | java (kind : Java.Kind)
  | yaml (kind : Yaml.Kind)
deriving DecidableEq, Repr

instance : Coe Java.Kind Kind := ⟨.java⟩

instance : Coe Yaml.Kind Kind := ⟨.yaml⟩

namespace Kind

/-- The kind belongs to the Java language. -/
def isJava : Kind → Bool
  | java _ => true
  | yaml _ => false

/-- The kind belongs to the YAML language. -/
def isYaml : Kind → Bool
  | java _ => false
  | yaml _ => true

end Kind

/-- The two characters that separate or close the items of a list. -/
inductive Delimiter where
  | comma
  | semicolon
deriving DecidableEq, Repr

namespace Delimiter

/-- The text of the delimiter. -/
def text : Delimiter → String
  | comma => ","
  | semicolon => ";"

/-- The marker that an item carries when this delimiter followed it. -/
def marker : Delimiter → MarkerKind
  | comma => .comma
  | semicolon => .semicolon

end Delimiter

/-- How the children of a node are joined. -/
inductive Layout where
  /-- Children print back to back. -/
  | sequence
  /-- Child nodes are items: the separator stands between two items, and behind the last
  one only if it is marked there; the closer only behind a marked last item. -/
  | separated (separator : Delimiter) (closer : Option Delimiter)
deriving DecidableEq, Repr

/-- The layout of each kind of node. -/
def Kind.layout : Kind → Layout
  | .java .enumConstants => .separated .comma (some .semicolon)
  | .java .tryResources => .separated .semicolon none
  | .java .typeParameters | .java .extendsClause | .java .implementsClause
  | .java .parameters | .java .throwsClause | .java .declarators | .java .arguments
  | .java .arrayInit | .java .typeArguments => .separated .comma none
  | _ => .sequence

end Codemod.Tree
