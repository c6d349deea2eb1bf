import Codemod.Proofs.Yaml.Chains
import Codemod.Proofs.Yaml.PlainTexts

/-!
Trees of properties written one property a row, with blank rows and comments between them. The rows of a
tree are laid out, whatever the indentation of its groups, so they are read as a document that shows the
tree. The main statement says that a lone hyphen is the only value of plain characters for which this
fails.
-/

namespace Codemod.Yaml

open Codemod.Tree

/-! ### Trees and their rows -/

/-- A key with a value, or with the properties below it, of which there is at least one. -/
inductive Property where
  | leaf (key : PlainKey) (value : PlainValue)
  | group (key : PlainKey) (first : Property) (others : List Property)

mutual

/-- The values below a property, in order. -/
def Property.values : Property → List PlainValue
  | .leaf _ value => [value]
  | .group _ first others => first.values ++ Property.valuesList others

/-- The values below some properties, in order. -/
def Property.valuesList : List Property → List PlainValue
  | [] => []
  | p :: ps => p.values ++ Property.valuesList ps

end

/-- A row without a property: blanks, and perhaps a comment behind them. -/
inductive Filler : List Char → Prop where
  | blank {row : List Char} (h : ∀ c ∈ row, isSpace c = true) : Filler row
  | comment {blanks text : List Char} (h : ∀ c ∈ blanks, isSpace c = true) (hline : '\n' ∉ text) :
      Filler (blanks ++ '#' :: text)

/-- A row of spaces up to a column, a key and its colon, and a value behind a space, unless it is empty.
-/
def propertyRow (column : Nat) (key : PlainKey) (value : String) : List Char :=
  List.replicate column ' ' ++
    (key.text.toList ++ ':' :: if value = "" then [] else ' ' :: value.toList)

/-- The rows that properties are written as from a column on: each property behind any fillers, and the
properties of a group behind it in a column further in. -/
inductive Rows : (column : Nat) → List Property → List (List Char) → Prop where
  | nil {column : Nat} : Rows column [] []
  | leaf {column : Nat} {key : PlainKey} {value : PlainValue} {others : List Property}
      {above rows : List (List Char)} (habove : ∀ row ∈ above, Filler row) (h : Rows column others rows) :
      Rows column (.leaf key value :: others) (above ++ propertyRow column key value.text :: rows)
  | group {column below : Nat} {key : PlainKey} {first : Property} {inside others : List Property}
      {above inner rows : List (List Char)} (habove : ∀ row ∈ above, Filler row)
      (hdeeper : column < below) (hinside : Rows below (first :: inside) inner)
      (h : Rows column others rows) :
      Rows column (.group key first inside :: others)
        (above ++ propertyRow column key "" :: (inner ++ rows))

theorem Rows.ne_nil {column : Nat} {p : Property} {ps : List Property} {rows : List (List Char)}
    (h : Rows column (p :: ps) rows) : rows ≠ [] := by
  cases h <;> simp

/-- What ends a line. -/
def IsLineEnd (ends : List Char) : Prop :=
  ends = ['\n'] ∨ ends = ['\r', '\n']

/-- The entries show the properties: the same keys in the same order, as they are written and by their
segments, with the same values, as they are written, or with mappings that show the same groups. -/
inductive Shows : List Element → List Property → Prop where
  | nil : Shows [] []
  | leaf {n value : Node} {key : PlainKey} {text : PlainValue} {es : List Element} {ps : List Property}
      (hkey : keyText n = some key.text) (hsegments : entrySegments n = key.segments)
      (hvalue : entryValue? n = some value) (htext : scalarText? value = some text.text)
      (h : Shows es ps) : Shows (.node n :: es) (.leaf key text :: ps)
  | group {n value : Node} {key : PlainKey} {first : Property} {inside ps : List Property}
      {es : List Element} (hkey : keyText n = some key.text) (hsegments : entrySegments n = key.segments)
      (hvalue : entryValue? n = some value) (hmapping : value.kind = .yaml .mapping)
      (hinside : Shows value.children (first :: inside)) (h : Shows es ps) :
      Shows (.node n :: es) (.group key first inside :: ps)

/-! ### Texts of rows -/

/-- The rows with a line end between them, and `front` in front of the first. -/
def rowText (ends front : List Char) : List (List Char) → List Char
  | [] => []
  | row :: rows => front ++ (row ++ rowText ends ends rows)

section
variable (ends : List Char)

theorem rowText_front (front : List Char) {rows : List (List Char)} (hne : rows ≠ []) :
    rowText ends front rows = front ++ rowText ends [] rows := by
  cases rows with
  | nil => contradiction
  | cons row rows => rfl

theorem rowText_append {front : List Char} {rows : List (List Char)} (h : rows = [] → front = ends)
    (others : List (List Char)) :
    rowText ends front (rows ++ others) = rowText ends front rows ++ rowText ends ends others := by
  induction rows generalizing front with
  | nil => rw [h rfl]; rfl
  | cons row rows ih => simp [rowText, ih fun _ => rfl]

theorem intercalate_rows (rows : List (List Char)) : ends.intercalate rows = rowText ends [] rows := by
  induction rows with
  | nil => rfl
  | cons row rows ih =>
      cases rows with
      | nil => simp [rowText]
      | cons next rows =>
          rw [List.intercalate_cons_cons, ih, rowText.eq_2 ends [] row,
            rowText_front ends ends (List.cons_ne_nil _ _)]
          simp

theorem rowText_split (front : List Char) (above : List (List Char)) (indent text : List Char)
    (rows : List (List Char)) :
    rowText ends front (above ++ (indent ++ text) :: rows) =
      rowText ends front (above ++ [indent]) ++ (text ++ rowText ends ends rows) := by
  induction above generalizing front with
  | nil => simp [rowText]
  | cons row above ih => simp [rowText, ih]

end

/-! ### Rows without properties -/

section
variable {ends : List Char} (hends : IsLineEnd ends)
include hends

theorem commentBehind_lineEnd (cs : List Char) :
    commentBehind false (ends ++ cs) = commentBehind false cs := by
  rcases hends with rfl | rfl <;> rfl

theorem lastLine_lineEnd (front cs : List Char) :
    Text.lastLine (front ++ (ends ++ cs)) = Text.lastLine cs := by
  rcases hends with rfl | rfl
  · exact lastLine_break front cs
  · simpa using lastLine_break (front ++ ['\r']) cs

theorem head_lineEnd (cs : List Char) : (ends ++ cs).head? ≠ some '#' := by
  rcases hends with rfl | rfl <;> simp

theorem break_mem_lineEnd (cs : List Char) : '\n' ∈ ends ++ cs := by
  rcases hends with rfl | rfl <;> simp

end

theorem commentBehind_blanks {blanks : List Char} (h : ∀ c ∈ blanks, isSpace c = true) (cs : List Char) :
    commentBehind false (blanks ++ cs) = commentBehind false cs := by
  induction blanks with
  | nil => rfl
  | cons c blanks ih =>
      obtain ⟨hc, hblanks⟩ := List.forall_mem_cons.1 h
      simp [commentBehind, hc, ih hblanks]

theorem Filler.closed {ends row : List Char} (h : Filler row) (hends : IsLineEnd ends) (cs : List Char) :
    commentBehind false (row ++ (ends ++ cs)) = commentBehind false cs := by
  cases h with
  | blank h => rw [commentBehind_blanks h, commentBehind_lineEnd hends]
  | @comment blanks text h hline =>
      have hopen : commentBehind false ('#' :: (text ++ (ends ++ cs))) = commentBehind false cs := by
        show commentBehind true _ = _
        rw [commentBehind_append, commentBehind_open hline]
        rcases hends with rfl | rfl <;> rfl
      rw [List.append_assoc, commentBehind_blanks h]
      exact hopen

theorem Filler.trivia {row : List Char} (h : Filler row) : IsTrivia row := by
  cases h with
  | blank h =>
      have hclosed := commentBehind_blanks h []
      rw [List.append_nil] at hclosed
      rw [IsTrivia, hclosed]
      rfl
  | @comment blanks text h hline =>
      have hopen : commentBehind false ('#' :: text) = some true := commentBehind_open hline
      rw [IsTrivia, commentBehind_blanks h, hopen]
      rfl

/-- What stands in front of the first row of some entries: nothing at the start of a document, else a
line end. -/
inductive RowFront (ends : List Char) : Edge → List Char → Prop where
  | start : RowFront ends .start []
  | behind {edge : Edge} (hedge : edge ≠ .start) : RowFront ends edge ends

section
variable {ends : List Char} (hends : IsLineEnd ends) {above : List (List Char)}
  (habove : ∀ row ∈ above, Filler row)
include hends habove

theorem closed_rows {rows : List (List Char)} (hne : rows ≠ []) :
    commentBehind false (rowText ends [] (above ++ rows)) =
      commentBehind false (rowText ends [] rows) := by
  induction above with
  | nil => rfl
  | cons row above ih =>
      obtain ⟨hrow, habove⟩ := List.forall_mem_cons.1 habove
      rw [List.cons_append, rowText, rowText_front ends ends (by simp [hne]), List.nil_append,
        hrow.closed hends, ih habove]

omit habove in
theorem lastLine_rows {indent : List Char} (hindent : '\n' ∉ indent) :
    Text.lastLine (rowText ends [] (above ++ [indent])) = indent := by
  induction above with
  | nil => simpa [rowText] using lastLine_of_not_mem hindent
  | cons row above ih =>
      rw [List.cons_append, rowText, rowText_front ends ends (by simp), List.nil_append,
        lastLine_lineEnd hends, ih]

theorem leadAt_rows {edge : Edge} {front : List Char} (hfront : RowFront ends edge front) (column : Nat) :
    LeadAt edge column (rowText ends front (above ++ [List.replicate column ' '])) := by
  have hspace : ∀ c ∈ List.replicate column ' ', isSpace c = true := fun c hc => by
    rw [List.eq_of_mem_replicate hc]
    rfl
  have hline : '\n' ∉ List.replicate column ' ' := not_mem_blanks hspace
  have hclosed : commentBehind false (rowText ends [] (above ++ [List.replicate column ' '])) =
      some false := by
    rw [closed_rows hends habove (by simp)]
    simpa [rowText, commentBehind] using commentBehind_blanks hspace []
  have hstart : LeadAt .start column (rowText ends [] (above ++ [List.replicate column ' '])) := by
    have hmargin : margin (rowText ends [] (above ++ [List.replicate column ' '])) =
        ({} : Position).pass (List.replicate column ' ') := by
      rw [margin, lastLine_rows hends hline]
    refine ⟨hclosed, ?_, ?_, fun hedge => absurd rfl hedge, fun hedge => by cases hedge⟩
    · rw [hmargin, column_spaces]
      exact Nat.zero_add column
    · rw [hmargin, (flags_pass hline).2]
      simp
  cases hfront with
  | start => exact hstart
  | behind hedge =>
      rw [rowText_front ends ends (by simp)]
      exact hstart.of_lastLine (lastLine_lineEnd hends [] _)
        (by rw [commentBehind_lineEnd hends, hclosed]) (fun _ => break_mem_lineEnd hends _)
        fun _ => head_lineEnd hends _

theorem endAt_rows (edge : Edge) : EndAt edge (rowText ends ends above) := by
  by_cases hne : above = []
  · subst hne
    exact ⟨rfl, fun _ => by simp [rowText]⟩
  · obtain ⟨front, last, rfl⟩ := (List.eq_nil_or_concat' above).resolve_left hne
    have hlast : Filler last := habove last (by simp)
    rw [rowText_front ends ends hne]
    refine ⟨?_, fun _ => head_lineEnd hends _⟩
    rw [IsTrivia, commentBehind_lineEnd hends,
      closed_rows hends (fun row hrow => habove row (by simp [hrow])) (by simp)]
    simpa [rowText, IsTrivia] using hlast.trivia

end

/-! ### Rows are laid out -/

theorem PlainKey.shown (key : PlainKey) (lead : List Char) (value : Node) :
    keyText (entryNode lead key.text.toList [] value) = some key.text ∧
      entrySegments (entryNode lead key.text.toList [] value) = key.segments := by
  constructor
  · rw [keyText_entryNode, String.ofList_toList]
  · rw [entrySegments_entry rfl rfl rfl, String.ofList_toList, key.keySegments_text]

theorem shows_leaf {lead blanks : List Char} {key : PlainKey} {text : PlainValue} {es : List Element}
    {ps : List Property} (h : Shows es ps) :
    Shows (.node (entryNode lead key.text.toList [] (scalarNode blanks text.text.toList)) :: es)
      (.leaf key text :: ps) := by
  obtain ⟨hkey, hsegments⟩ := key.shown lead (scalarNode blanks text.text.toList)
  refine .leaf hkey hsegments (entryValue_entry rfl rfl) ?_ h
  rw [scalarText_scalar rfl rfl, String.ofList_toList]

theorem shows_group {lead : List Char} {key : PlainKey} {first : Property} {inside ps : List Property}
    {children es : List Element} (hinside : Shows children (first :: inside)) (h : Shows es ps) :
    Shows (.node (entryNode lead key.text.toList [] (mappingNode children)) :: es)
      (.group key first inside :: ps) := by
  obtain ⟨hkey, hsegments⟩ := key.shown lead (mappingNode children)
  exact .group hkey hsegments (entryValue_entry rfl rfl) rfl hinside h

theorem Shows.ne_nil {es : List Element} {p : Property} {ps : List Property} (h : Shows es (p :: ps)) :
    es ≠ [] := by
  cases h <;> exact List.cons_ne_nil _ _

theorem scalarLaid_value (key : PlainKey) {value : PlainValue} (hdash : value.text ≠ "-") :
    ∃ blanks edge, ScalarLaid key.text.toList (scalarNode blanks value.text.toList) edge ∧
      blanks ++ value.text.toList = if value.text = "" then [] else ' ' :: value.text.toList := by
  split_ifs with hsome
  · rw [hsome]
    exact ⟨[], _, .missing, rfl⟩
  · exact ⟨[' '], _, .inLine (by simp [isSpace]) (fun _ => by simp) (value.form hsome hdash), rfl⟩

theorem laid_of_rows {ends : List Char} (hends : IsLineEnd ends) {column : Nat} {ps : List Property}
    {rows : List (List Char)} (h : Rows column ps rows)
    (hdash : ∀ value ∈ Property.valuesList ps, value.text ≠ "-") {edge : Edge} {front : List Char}
    (hfront : RowFront ends edge front) :
    ∃ es last, Laid edge column es last ∧ Shows es ps ∧
      (Node.printList .sequence es).toList = rowText ends front rows := by
  induction h generalizing edge front with
  | nil => exact ⟨[], edge, .nil, .nil, rfl⟩
  | @leaf column key value others above rows habove _ ih =>
      rw [Property.valuesList, Property.values, List.singleton_append] at hdash
      obtain ⟨hvalue, hothers⟩ := List.forall_mem_cons.1 hdash
      obtain ⟨blanks, behind, hscalar, htext⟩ := scalarLaid_value key hvalue
      obtain ⟨es, last, hlaid, hshows, hprint⟩ := ih hothers (.behind hscalar.ne_start)
      refine ⟨_, last, .scalar (leadAt_rows hends habove hfront column) key.form hscalar hlaid,
        shows_leaf hshows, ?_⟩
      rw [toList_printList_entry, print_scalarNode, htext, hprint, propertyRow, rowText_split]
      simp
  | @group column below key first inside others above inner rows habove hdeeper _ _ ihinside ih =>
      rw [Property.valuesList, Property.values] at hdash
      obtain ⟨hvalues, hothers⟩ := List.forall_mem_append.1 hdash
      have hcolon := colonBehind_ne_start key.text.toList
      obtain ⟨children, behind, hinner, hchildren, hbelow⟩ := ihinside hvalues (.behind hcolon)
      have hne := hchildren.ne_nil
      obtain ⟨es, last, hlaid, hshows, hprint⟩ := ih hothers (.behind (hinner.ne_start (.inl hne)))
      refine ⟨_, last, .nested (leadAt_rows hends habove hfront column) key.form hdeeper hne hinner hlaid,
        shows_group hchildren hshows, ?_⟩
      rw [toList_printList_entry, print_mappingNode, hbelow, hprint, propertyRow, rowText_split,
        rowText_append ends fun _ => rfl]
      simp

/-! ### The lone hyphen -/

theorem not_hyphen_of_parseDocument {source : String} {document : Node}
    (h : parseDocument source = .ok document) :
    document.Everywhere fun n => scalarText? n ≠ some "-" := by
  have hother : ∀ n : Node, n.kind ≠ .yaml .scalar → scalarText? n ≠ some "-" := fun n hkind => by
    rw [scalarText_eq_none hkind]
    simp
  refine everywhere_of_parseDocument (fun n _ => hother n) (fun hscalar => ?_)
    (fun value _ _ => hother _ (by simp [entryNode])) h
  cases hscalar with
  | @inLine blanks left raw q hspaces hhere hraw =>
      intro htext
      obtain rfl : raw = ['-'] := by
        rw [scalarText_scalar rfl rfl, Option.some.injEq] at htext
        simpa using congrArg String.toList htext
      obtain ⟨_, _, hleft⟩ := spaces_eq_iff.1 hspaces
      obtain ⟨_, hends, _⟩ := scalarForm_of_scalarText hraw hhere hleft
      have hsupported := (scalarText_eq_ok.1 hraw).1
      rw [passes_scalarText hraw] at hsupported
      simp [unsupported?, endsIndicator_of_endsLine hends] at hsupported
  | missing => simp [scalarNode, scalarText?, Node.tokens, Element.token?]

theorem Shows.exists_scalar {es : List Element} {ps : List Property} (h : Shows es ps) {value : PlainValue}
    (hvalue : value ∈ Property.valuesList ps) :
    ∃ e m, Element.node e ∈ es ∧ m ∈ e.preorder ∧ scalarText? m = some value.text := by
  have hbelow : ∀ {n v m : Node}, entryValue? n = some v → m ∈ v.preorder → m ∈ n.preorder := by
    intro n v m hv hm
    rw [entryValue?] at hv
    split_ifs at hv
    exact mem_preorder.2 (.inr ⟨v, mem_childNodes.1 (List.mem_of_getLast? hv), hm⟩)
  induction h with
  | nil => cases hvalue
  | @leaf n v key text es ps _ _ hv htext _ ih =>
      rw [Property.valuesList, Property.values, List.singleton_append, List.mem_cons] at hvalue
      rcases hvalue with rfl | hvalue
      · exact ⟨n, v, List.mem_cons_self, hbelow hv (mem_preorder_self v), htext⟩
      · obtain ⟨e, m, he, hm, hscalar⟩ := ih hvalue
        exact ⟨e, m, List.mem_cons_of_mem _ he, hm, hscalar⟩
  | @group n v key first inside ps es _ _ hv _ _ _ ihinside ih =>
      rw [Property.valuesList, Property.values, List.mem_append] at hvalue
      rcases hvalue with hvalue | hvalue
      · obtain ⟨e, m, he, hm, hscalar⟩ := ihinside hvalue
        exact ⟨n, m, List.mem_cons_self, hbelow hv (mem_preorder.2 (.inr ⟨e, he, hm⟩)), hscalar⟩
      · obtain ⟨e, m, he, hm, hscalar⟩ := ih hvalue
        exact ⟨e, m, List.mem_cons_of_mem _ he, hm, hscalar⟩

/-- Properties written one a row, in columns further in for each group, with any fillers above each
property and at the end, are read as a document that shows them, exactly if no value is a lone hyphen. -/
theorem written_properties_iff {column : Nat} {first : Property} {others : List Property}
    {rows trailing : List (List Char)} {ends : List Char} (hrows : Rows column (first :: others) rows)
    (htrailing : ∀ row ∈ trailing, Filler row) (hends : IsLineEnd ends) :
    (∃ document mapping,
      parseDocument (String.ofList (ends.intercalate (rows ++ trailing))) = .ok document ∧
        documentMapping? document = some mapping ∧ Shows mapping.children (first :: others)) ↔
      ∀ value ∈ Property.valuesList (first :: others), value.text ≠ "-" := by
  constructor
  · rintro ⟨document, mapping, hparse, hmapping, hshows⟩ value hvalue hdash
    obtain ⟨e, m, he, hm, hscalar⟩ := hshows.exists_scalar hvalue
    have hchild : mapping ∈ document.childNodes := List.mem_of_find?_eq_some hmapping
    have hbelow : m ∈ document.preorder :=
      mem_preorder.2 (.inr ⟨mapping, mem_childNodes.1 hchild, mem_preorder.2 (.inr ⟨e, he, hm⟩)⟩)
    exact not_hyphen_of_parseDocument hparse m hbelow (by rw [hscalar, hdash])
  · intro hdash
    obtain ⟨es, last, hlaid, hshows, hprint⟩ := laid_of_rows hends hrows hdash .start
    have hne := hshows.ne_nil
    have hlast := hlaid.ne_start (.inl hne)
    have hdocument : DocumentLaid
        (documentNode [] [.node (mappingNode es)] (rowText ends ends trailing)) :=
      .intro .none (.some hne hlaid) (endAt_rows hends htrailing last)
    have htext : (documentNode [] [.node (mappingNode es)] (rowText ends ends trailing)).print =
        String.ofList (ends.intercalate (rows ++ trailing)) := by
      apply String.toList_injective
      rw [print_documentNode, printList_cons, Element.print, print_mappingNode, String.toList_append,
        hprint, intercalate_rows, rowText_append ends fun hnil => absurd hnil hrows.ne_nil]
      simp [Node.printList]
    rw [← htext]
    exact ⟨_, mappingNode es, parseDocument_of_laid hdocument, rfl, hshows⟩

/-- A group below fillers, with a dotted key, and an empty value behind it. -/
theorem written_properties_iff_group :
    ∃ (outer inner last : PlainKey) (value empty : PlainValue), outer.text = "a.b" ∧ inner.text = "c-1" ∧
      last.text = "d" ∧ value.text = "-2" ∧ empty.text = "" ∧ ∃ document mapping,
        parseDocument "# x: y\n \na.b:\n  #\n   c-1: -2\nd:\n" = .ok document ∧
          documentMapping? document = some mapping ∧
            Shows mapping.children [.group outer (.leaf inner value) [], .leaf last empty] := by
  obtain ⟨outer, houterText⟩ : ∃ key : PlainKey, key.text = "a.b" :=
    ⟨.ofSegments "a" ["b"] (by decide) (by decide), by decide⟩
  obtain ⟨inner, hinnerText⟩ : ∃ key : PlainKey, key.text = "c-1" :=
    ⟨.ofSegments "c-1" [] (by decide) (by decide), by decide⟩
  obtain ⟨last, hlastText⟩ : ∃ key : PlainKey, key.text = "d" :=
    ⟨.ofSegments "d" [] (by decide) (by decide), by decide⟩
  obtain ⟨rows, hrows, htext⟩ : ∃ rows,
      Rows 0 [.group outer (.leaf inner (.ofText "-2" (by decide))) [],
        .leaf last (.ofText "" (by decide))] rows ∧
      String.ofList (['\n'].intercalate (rows ++ [[]])) =
        "# x: y\n \na.b:\n  #\n   c-1: -2\nd:\n" := by
    have hcomment : Filler (([] : List Char) ++ '#' :: " x: y".toList) :=
      .comment nofun (by decide)
    have hblank : Filler [' '] := .blank (by simp [isSpace])
    have hempty : Filler ([' ', ' '] ++ '#' :: []) := .comment (by simp [isSpace]) (by simp)
    refine ⟨_, .group (List.forall_mem_cons.2 ⟨hcomment, List.forall_mem_singleton.2 hblank⟩)
      (by decide : 0 < 3) (.leaf (List.forall_mem_singleton.2 hempty) .nil)
      (.leaf (List.forall_mem_nil Filler) .nil), ?_⟩
    simp only [propertyRow, houterText, hinnerText, hlastText]
    decide
  have hend : Filler [] := .blank nofun
  have hread := (written_properties_iff hrows (List.forall_mem_singleton.2 hend) (.inl rfl)).2
    (by simp [Property.valuesList, Property.values, PlainValue.ofText])
  rw [htext] at hread
  exact ⟨outer, inner, last, _, _, houterText, hinnerText, hlastText, rfl, rfl, hread⟩

/-- A value that is a lone hyphen begins a sequence, so its text is refused. -/
theorem lone_hyphen_refused :
    ∃ (key : PlainKey) (value : PlainValue), key.text = "a" ∧ value.text = "-" ∧
      Rows 0 [.leaf key value] [['a', ':', ' ', '-']] ∧
        parseDocument (String.ofList (['\n'].intercalate [['a', ':', ' ', '-']])) =
          .error (.unsupported .sequence 1 3) := by
  obtain ⟨key, htext⟩ : ∃ key : PlainKey, key.text = "a" :=
    ⟨.ofSegments "a" [] (by decide) (by decide), by decide⟩
  have hrow : propertyRow 0 key "-" = ['a', ':', ' ', '-'] := by
    rw [propertyRow, htext]
    decide
  refine ⟨key, .ofText "-" (by decide), htext, rfl, ?_, by decide⟩
  rw [← hrow]
  exact .leaf (List.forall_mem_nil Filler) .nil

end Codemod.Yaml
