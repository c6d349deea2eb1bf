import Codemod.Proofs.Java.Units

/-!
The text of lists whose items were put in, taken out or moved. A list is its items, with tokens in
front of each of them and behind the last. Whatever the items were marked with where they stood
before, one separator stands between two of them, and behind the last one only what it is marked
with itself. In a list that was parsed, only the last item is.
-/

namespace Codemod.Tree

/-- The trivia that an item keeps for a separator behind it: that of the separator it was written
with, be it between two items or behind the last one. -/
def spacing (markers : Markers) (separator : Delimiter) : String :=
  ((markers.get? .separator).or (markers.get? separator.marker)).elim "" Marker.before

/-- The delimiter that an item is marked with, behind its trivia. -/
def recorded (markers : Markers) (delimiter : Delimiter) : String :=
  (markers.get? delimiter.marker).elim "" fun marker => marker.before ++ delimiter.text

/-- What an item is marked with that ends a list: a trailing separator, then a closer. -/
def ending (markers : Markers) (separator : Delimiter) (closer : Option Delimiter) : String :=
  recorded markers separator ++ closer.elim "" (recorded markers)

/-- Texts of items, each with the markers of its item: separators stand between the texts, and the
last one has its ending behind it. -/
def listText (separator : Delimiter) (closer : Option Delimiter)
    (items : List (String × Markers)) : String :=
  match items.getLast? with
  | none => ""
  | some (last, markers) =>
      separator.text.intercalate
          (items.dropLast.map (fun item => item.1 ++ spacing item.2 separator) ++ [last])
        ++ ending markers separator closer

/-- An item of a list, and the tokens between it and the item in front of it. -/
structure Stretch where
  front : List Token
  item : Node

namespace Stretch

/-- The tokens and the item as children. -/
def children (s : Stretch) : List Element :=
  s.front.map .token ++ [.node s.item]

/-- The text of the tokens and the item, and the markers of the item. -/
def text (s : Stretch) : String × Markers :=
  (printTokens s.front ++ s.item.print, s.item.markers)

end Stretch

theorem exists_stretches (es : List Element) : ∃ (stretches : List Stretch) (after : List Token),
    es = stretches.flatMap Stretch.children ++ after.map .token := by
  induction es with
  | nil => exact ⟨[], [], rfl⟩
  | cons e es ih =>
      obtain ⟨stretches, after, rfl⟩ := ih
      cases e with
      | node n => exact ⟨⟨[], n⟩ :: stretches, after, rfl⟩
      | token t =>
          cases stretches with
          | nil => exact ⟨[], t :: after, rfl⟩
          | cons s stretches => exact ⟨⟨t :: s.front, s.item⟩ :: stretches, after, rfl⟩

section
variable (separator : Delimiter) (closer : Option Delimiter)

theorem listText_singleton (text : String) (markers : Markers) :
    listText separator closer [(text, markers)] = text ++ ending markers separator closer := by
  simp [listText, String.intercalate_singleton]

theorem listText_cons_cons (item next : String × Markers) (rest : List (String × Markers)) :
    listText separator closer (item :: next :: rest) =
      item.1 ++ spacing item.2 separator ++ separator.text ++
        listText separator closer (next :: rest) := by
  obtain ⟨last, hlast⟩ : ∃ last, (next :: rest).getLast? = some last :=
    ⟨_, List.getLast?_eq_some_getLast (List.cons_ne_nil next rest)⟩
  have hne : (next :: rest).dropLast.map (fun item => item.1 ++ spacing item.2 separator) ++
      [last.1] ≠ [] := by simp
  simp only [listText, List.getLast?_cons_cons, hlast, List.dropLast_cons_cons, List.map_cons,
    List.cons_append]
  rw [String.intercalate_cons_of_ne_nil hne]
  simp only [String.append_assoc]

theorem printBetween_eq (markers : Markers) :
    printBetween markers separator = spacing markers separator ++ separator.text := by
  unfold printBetween spacing
  cases markers.get? .separator <;> cases markers.get? separator.marker <;> simp [Marker.print]

theorem printMarked_eq (markers : Markers) (delimiter : Delimiter) :
    printMarked markers delimiter = recorded markers delimiter := by
  unfold printMarked recorded
  cases markers.get? delimiter.marker <;> rfl

theorem printBehind_eq (markers : Markers) :
    printBehind markers separator closer = ending markers separator closer := by
  cases closer <;> simp [printBehind, ending, printMarked_eq]

theorem printList_tokens (layout : Layout) (ts : List Token) (es : List Element) :
    Node.printList layout (ts.map .token ++ es) = printTokens ts ++ Node.printList layout es := by
  induction ts with
  | nil => simp [printTokens]
  | cons t ts ih =>
      have hnone : layout.delimiters (.token t) (ts.map .token ++ es) = "" := by cases layout <;> rfl
      simp only [List.map_cons, List.cons_append, Node.printList, Element.print, printTokens, ih, hnone,
        String.append_empty, String.append_assoc]

theorem printList_stretches (stretches : List Stretch) (after : List Token) :
    Node.printList (.separated separator closer)
        (stretches.flatMap Stretch.children ++ after.map .token) =
      listText separator closer (stretches.map Stretch.text) ++ printTokens after := by
  induction stretches with
  | nil =>
      have hafter := printList_tokens (.separated separator closer) after []
      rw [List.append_nil] at hafter
      rw [List.flatMap_nil, List.nil_append, hafter, Node.printList, String.append_empty]
      exact (String.empty_append).symm
  | cons s stretches ih =>
      rw [List.flatMap_cons, Stretch.children, List.append_assoc, List.append_assoc,
        printList_tokens, List.singleton_append, Node.printList, ih, Element.print]
      cases stretches with
      | nil =>
          have hlast : ((after.map Element.token).any fun e => e.node?.isSome) = false := by
            simp [Element.node?]
          rw [List.flatMap_nil, List.nil_append, Layout.delimiters, hlast, if_neg Bool.false_ne_true,
            printBehind_eq, List.map_singleton, List.map_nil, Stretch.text, listText_singleton]
          simp [listText, String.append_assoc]
      | cons next rest =>
          have hnext : ((((next :: rest).flatMap Stretch.children ++ after.map Element.token)).any
              fun e => e.node?.isSome) = true := by
            simp [Stretch.children, Element.node?]
          rw [Layout.delimiters, hnext, if_pos rfl, printBetween_eq]
          simp only [List.map_cons, listText_cons_cons, Stretch.text, String.append_assoc]

end

end Codemod.Tree

namespace Codemod.Java

open Codemod.Tree

theorem shaped_of_mem {source : String} {unit n : Node} (h : parseUnit source = .ok unit)
    (hn : n ∈ unit.preorder) : n = unit ∨ Shaped n := by
  obtain ⟨items, last, hchildren, _, hitems⟩ := (unit_of_parseUnit h).1.children
  rcases mem_preorder.1 hn with rfl | ⟨c, hc, hn⟩
  · exact .inl rfl
  · rw [hchildren] at hc
    exact .inr ((hitems c (by simpa using hc)).1 n hn)

theorem layout_of_mem {source : String} {unit n : Node} (h : parseUnit source = .ok unit)
    (hn : n ∈ unit.preorder) {separator : Delimiter} {closer : Option Delimiter}
    (hlayout : n.kind.layout = .separated separator closer) :
    LayoutShape (.separated separator closer) n.children := by
  rcases shaped_of_mem h hn with rfl | hshaped
  · rw [(unit_of_parseUnit h).1.kind] at hlayout
    cases hlayout
  · exact hlayout ▸ hshaped.layout

theorem Separated.spaced {separator : Delimiter} {closer : Option Delimiter} {items : List Node}
    (h : Separated separator closer items) {item : Node} (hitem : item ∈ items.dropLast) :
    ∃ before, item.markers = [⟨.separator, before⟩] := by
  induction h with
  | nil => cases hitem
  | last => cases hitem
  | cons before hmarkers _ ih =>
      rw [List.dropLast_cons_cons, List.mem_cons] at hitem
      rcases hitem with rfl | hitem
      · exact ⟨before, hmarkers⟩
      · exact ih hitem

theorem childNodes_list {n : Node} {before after : List Token} {items : List Node}
    (h : n.children = before.map .token ++ items.map .node ++ after.map .token) :
    n.childNodes = items := by
  have hnone (ts : List Token) : (ts.map Element.token).filterMap Element.node? = [] := by
    simp [Element.node?]
  rw [Node.childNodes, h, List.filterMap_append, List.filterMap_append, hnone, hnone,
    List.nil_append, List.append_nil, List.filterMap_map]
  exact List.filterMap_some

theorem spaced_of_mem {source : String} {unit n item : Node} (h : parseUnit source = .ok unit)
    (hn : n ∈ unit.preorder) (hlist : n.kind.layout ≠ .sequence)
    (hitem : item ∈ n.childNodes.dropLast) : ∃ before, item.markers = [⟨.separator, before⟩] := by
  cases hlayout : n.kind.layout with
  | sequence => exact absurd hlayout hlist
  | separated separator closer =>
      obtain ⟨before, after, items, hchildren, hseparated⟩ := layout_of_mem h hn hlayout
      exact hseparated.spaced (childNodes_list hchildren ▸ hitem)

theorem ending_of_spaced {markers : Markers} {before : String}
    (h : markers = [⟨.separator, before⟩]) (separator : Delimiter) (closer : Option Delimiter) :
    ending markers separator closer = "" := by
  have hnone : ∀ delimiter, recorded markers delimiter = "" := by
    rintro (_ | _) <;> rw [h] <;> rfl
  cases closer <;> simp [ending, hnone]

/-- The text of a list, whatever its items are and however they are marked; and of a list of a unit
with any items in place of its own. An item that another one followed where it was parsed, be it in
this list or another, has nothing behind it where it comes last. -/
theorem printed_lists :
    (∀ (n : Node) (separator : Delimiter) (closer : Option Delimiter),
      n.kind.layout = .separated separator closer →
        ∃ (stretches : List Stretch) (after : List Token),
          n.children = stretches.flatMap Stretch.children ++ after.map .token ∧
            n.print =
              n.lead ++ listText separator closer (stretches.map Stretch.text) ++ printTokens after) ∧
      ∀ (source : String) (unit n : Node) (separator : Delimiter) (closer : Option Delimiter),
        parseUnit source = .ok unit → n ∈ unit.preorder →
          n.kind.layout = .separated separator closer →
            ∃ (before after : List Token) (items : List Node),
              n.children = before.map .token ++ items.map .node ++ after.map .token ∧
                ∀ edited : List Node,
                  let children := before.map .token ++ edited.map .node ++ after.map .token
                  ({ n with children } : Node).print =
                      n.lead ++ printTokens before
                        ++ listText separator closer (edited.map fun item => (item.print, item.markers))
                        ++ printTokens after ∧
                    ∀ last ∈ edited.getLast?, ∀ (source' : String) (unit' list : Node),
                      parseUnit source' = .ok unit' → list ∈ unit'.preorder →
                        list.kind.layout ≠ .sequence → last ∈ list.childNodes.dropLast →
                          ending last.markers separator closer = "" := by
  refine ⟨fun n separator closer hlayout => ?_, fun source unit n separator closer h hn hlayout => ?_⟩
  · obtain ⟨stretches, after, hchildren⟩ := exists_stretches n.children
    refine ⟨stretches, after, hchildren, ?_⟩
    obtain ⟨kind, lead, children, markers, type?⟩ := n
    simp only at hlayout hchildren ⊢
    rw [Node.print, hlayout, hchildren, printList_stretches, String.append_assoc]
  · obtain ⟨before, after, items, hchildren, -⟩ := layout_of_mem h hn hlayout
    refine ⟨before, after, items, hchildren, fun edited =>
      ⟨?_, fun last _ source' unit' list h' hmem hlist hlast => ?_⟩⟩
    · obtain ⟨kind, lead, children, markers, type?⟩ := n
      simp only at hlayout ⊢
      have hedited : edited.map Element.node =
          (edited.map fun item => (⟨[], item⟩ : Stretch)).flatMap Stretch.children := by
        rw [List.flatMap_map]
        induction edited with
        | nil => rfl
        | cons item edited ih => rw [List.map_cons, List.flatMap_cons, ih]; rfl
      rw [Node.print, hlayout, List.append_assoc, printList_tokens, hedited, printList_stretches,
        List.map_map]
      simp [Function.comp_def, Stretch.text, printTokens, String.append_assoc]
    · obtain ⟨space, hmarkers⟩ := spaced_of_mem h' hmem hlist hlast
      exact ending_of_spaced hmarkers separator closer

/-- The constants in reverse order have no comma and no semicolon behind them, for the one that was
last is first now. -/
theorem printed_lists_reversed :
    ∃ unit n, parseUnit "enum E \x7b A , B, C /**/, ; int i; \x7d" = .ok unit ∧ n ∈ unit.preorder ∧
      n.print = " A , B, C /**/, ;" ∧
        ({ n with children := n.children.reverse } : Node).print = "  C /**/, B,A" ∧
          ∀ first ∈ n.childNodes.head?, ending first.markers .comma (some .semicolon) = "" := by
  obtain ⟨unit, hunit, hfound⟩ := exists_ok_of_any
    (x := parseUnit "enum E \x7b A , B, C /**/, ; int i; \x7d")
    (p := fun unit => unit.preorder.any fun n =>
      n.kind == .java .enumConstants && n.lead == " " && n.tokens.isEmpty &&
        decide (n.childNodes.map (fun item => (item.print, item.markers)) =
          [("A", [⟨.separator, " "⟩]), (" B", [⟨.separator, ""⟩]),
            (" C", [⟨.comma, " /**/"⟩, ⟨.semicolon, " "⟩])]))
    (by decide +kernel)
  obtain ⟨n, hn, hparts⟩ := List.any_eq_true.1 hfound
  simp only [Bool.and_eq_true, beq_iff_eq, List.isEmpty_iff, decide_eq_true_eq] at hparts
  obtain ⟨⟨⟨hkind, hlead⟩, htokens⟩, hitems⟩ := hparts
  obtain ⟨before, after, items, hchildren, hprint⟩ := printed_lists.2 _ unit n .comma
    (some .semicolon) hunit hn (by rw [hkind]; rfl)
  have hnodes := childNodes_list hchildren
  rw [hnodes] at hitems
  rw [Node.tokens, hchildren] at htokens
  obtain ⟨rfl, rfl⟩ : before = [] ∧ after = [] := by
    simpa [List.filterMap_map, Function.comp_def, Element.token?] using htokens
  rw [List.map_nil, List.nil_append, List.append_nil] at hchildren
  refine ⟨unit, n, hunit, hn, ?_, ?_, fun first hfirst => ?_⟩
  · obtain ⟨kind, lead, children, markers, type?⟩ := n
    obtain rfl : children = items.map .node := hchildren
    have hsame := (hprint items).1
    simp only [List.map_nil, List.nil_append, List.append_nil] at hsame
    rw [hsame, hitems, show lead = " " from hlead]
    decide +kernel
  · have hreversed := (hprint items.reverse).1
    simp only [List.map_nil, List.nil_append, List.append_nil] at hreversed
    rw [hchildren, ← List.map_reverse, hreversed, List.map_reverse, hitems, hlead]
    decide +kernel
  · have hfollowed : first ∈ n.childNodes.dropLast := by
      rw [hnodes] at hfirst ⊢
      cases items with
      | nil => cases hfirst
      | cons item others =>
          cases hfirst
          rw [List.dropLast_cons_of_ne_nil (by rintro rfl; cases congrArg List.length hitems)]
          exact List.mem_cons_self
    refine (hprint items.reverse).2 first ?_ _ unit n hunit hn (by rw [hkind]; nofun) hfollowed
    rwa [List.getLast?_reverse, ← hnodes]

end Codemod.Java
