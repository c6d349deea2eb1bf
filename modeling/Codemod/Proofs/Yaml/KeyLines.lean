import Codemod.Proofs.Yaml.Chains
import Codemod.Proofs.Yaml.ContentLines
import Codemod.Proofs.Yaml.Layout

/-!
The lines on which the keys of a document stand. A document that is laid out is written as a row of
pieces, one for each entry: the trivia in front of its key, and its own text up to the next entry.
-/

namespace Codemod.Yaml

open Codemod.Tree

mutual

/-- The entries below a node in order, each as the chain that ends with it and the whole line on
which its key stands, where the texts are those in front of the node and behind it. -/
def keyLines (around : List Node) (before behind : List Char) :
    Node → List (List Node × List Char)
  | n@⟨kind, lead, children, _, _⟩ =>
      let start := before ++ lead.toList
      if kind = .yaml .entry then
        let line := Text.lastLine start ++
          firstLine ((Node.printList .sequence children).toList ++ behind)
        (around ++ [n], line) :: keyLinesList (around ++ [n]) start behind children
      else keyLinesList around start behind children

/-- The entries in a child with the lines of their keys. -/
def keyLinesElement (around : List Node) (before behind : List Char) :
    Element → List (List Node × List Char)
  | .node n => keyLines around before behind n
  | .token _ => []

/-- The entries in some children with the lines of their keys. -/
def keyLinesList (around : List Node) (before behind : List Char) :
    List Element → List (List Node × List Char)
  | [] => []
  | e :: es =>
      keyLinesElement around before ((Node.printList .sequence es).toList ++ behind) e ++
        keyLinesList around (before ++ e.print.toList) behind es

end

/-! ### Pieces of a document -/

/-- What is written for an entry, up to the entries below it, behind the trivia in front of its
key. -/
structure Piece where
  chain : List Node
  lead : String
  text : List Char

/-- The text of an entry without the entries below it. -/
def ownText (children : List Element) : List Char :=
  children.flatMap fun
    | .token t => t.print.toList
    | .node n => if n.kind = .yaml .mapping then [] else n.print.toList

mutual

/-- The pieces that are written for the entries below a node. -/
def pieces (around : List Node) : Node → List Piece
  | n@⟨kind, lead, children, _, _⟩ =>
      if kind = .yaml .entry then
        ⟨around ++ [n], lead, ownText children⟩ :: piecesList (around ++ [n]) children
      else piecesList around children

/-- The pieces that are written for the entries in a child. -/
def piecesElement (around : List Node) : Element → List Piece
  | .node n => pieces around n
  | .token _ => []

/-- The pieces that are written for the entries in some children. -/
def piecesList (around : List Node) : List Element → List Piece
  | [] => []
  | e :: es => piecesElement around e ++ piecesList around es

end

/-- The text of some pieces. -/
def written (ps : List Piece) : List Char :=
  ps.flatMap fun p => p.lead.toList ++ p.text

theorem written_cons (p : Piece) (ps : List Piece) :
    written (p :: ps) = p.lead.toList ++ (p.text ++ written ps) := by
  simp [written]

theorem written_append (ps qs : List Piece) : written (ps ++ qs) = written ps ++ written qs :=
  List.flatMap_append

/-- The lines on which the pieces begin behind their trivia. -/
def placedLines (before behind : List Char) : List Piece → List (List Node × List Char)
  | [] => []
  | p :: ps =>
      (p.chain, Text.lastLine (before ++ p.lead.toList) ++
          firstLine (p.text ++ (written ps ++ behind))) ::
        placedLines (before ++ p.lead.toList ++ p.text) behind ps

theorem placedLines_append (before behind : List Char) (ps qs : List Piece) :
    placedLines before behind (ps ++ qs) =
      placedLines before (written qs ++ behind) ps ++
        placedLines (before ++ written ps) behind qs := by
  induction ps generalizing before with
  | nil => simp [placedLines, written]
  | cons p ps ih =>
      rw [List.cons_append, placedLines, placedLines, ih, written_append, written_cons]
      simp

theorem chains_placedLines (before behind : List Char) (ps : List Piece) :
    (placedLines before behind ps).map Prod.fst = ps.map Piece.chain := by
  induction ps generalizing before with
  | nil => rfl
  | cons p ps ih => rw [placedLines, List.map_cons, List.map_cons, ih]

theorem mem_placedLines {before behind : List Char} {ps : List Piece} {x : List Node × List Char}
    (h : x ∈ placedLines before behind ps) :
    x.2 ∈ Text.splitOn '\n' (before ++ (written ps ++ behind)) := by
  induction ps generalizing before with
  | nil => cases h
  | cons p ps ih =>
      rw [written_cons]
      rcases List.mem_cons.1 h with rfl | h
      · simpa using mem_splitOn (before ++ p.lead.toList) (p.text ++ (written ps ++ behind))
      · simpa using ih h

theorem mem_line_of_pieces {c : Char} {before behind : List Char} {ps : List Piece}
    (hps : ∀ p ∈ ps, c ∈ firstLine p.text) {x : List Node × List Char}
    (h : x ∈ placedLines before behind ps) : c ∈ x.2 := by
  induction ps generalizing before with
  | nil => cases h
  | cons p ps ih =>
      obtain ⟨hp, hps⟩ := List.forall_mem_cons.1 hps
      rcases List.mem_cons.1 h with rfl | h
      · exact List.mem_append_right _ (mem_firstLine_append hp _)
      · exact ih hps h

/-! ### One node -/

theorem piecesList_eq (around : List Node) (es : List Element) :
    piecesList around es = (es.filterMap Element.node?).flatMap (pieces around) := by
  induction es with
  | nil => rfl
  | cons e es ih =>
      cases e <;> simp [piecesList, piecesElement, ih, Element.node?, List.filterMap_cons]

section
variable {n : Node}

theorem pieces_entry {value : Node} {key colon : Token} (hkind : n.kind = .yaml .entry)
    (h : n.children = [.token key, .token colon, .node value]) (around : List Node) :
    pieces around n =
      ⟨around ++ [n], n.lead, ownText n.children⟩ :: pieces (around ++ [n]) value := by
  obtain ⟨kind, lead, children, markers, type?⟩ := n
  cases hkind
  cases h
  simp [pieces, piecesList, piecesElement]

theorem pieces_scalar {t : Token} (hkind : n.kind = .yaml .scalar) (h : n.children = [.token t])
    (around : List Node) : pieces around n = [] := by
  obtain ⟨kind, lead, children, markers, type?⟩ := n
  cases hkind
  cases h
  rfl

theorem pieces_mapping (hkind : n.kind = .yaml .mapping) (around : List Node) :
    pieces around n = piecesList around n.children := by
  obtain ⟨kind, lead, children, markers, type?⟩ := n
  cases hkind
  rfl

end

theorem ownText_congr {key colon : Token} {value value' : Node} (hkind : value'.kind = value.kind)
    (h : value.kind ≠ .yaml .mapping → value' = value) :
    ownText [.token key, .token colon, .node value'] =
      ownText [.token key, .token colon, .node value] := by
  by_cases hmapping : value.kind = .yaml .mapping
  · simp [ownText, hkind, hmapping]
  · rw [h hmapping]

theorem chain_pieces (around : List Node) (n : Node) :
    (pieces around n).map Piece.chain = entryChains around n := by
  induction n using Node.induction_on generalizing around with
  | step n ih =>
      have hlist : ∀ around, (piecesList around n.children).map Piece.chain =
          entryChainsList around n.children := by
        intro around
        rw [piecesList_eq, entryChainsList_eq, List.map_flatMap]
        exact List.flatMap_congr fun c hc => ih c (mem_childNodes.1 hc) around
      have hentry := hlist (around ++ [n])
      obtain ⟨kind, lead, children, markers, type?⟩ := n
      rw [pieces, entryChains]
      split_ifs
      · rw [List.map_cons, hentry]
      · exact hlist around

/-- What leads to a node stands in front of each chain below it, and the pieces are else the same.
-/
theorem pieces_eq_map (front around : List Node) (n : Node) :
    pieces (front ++ around) n =
      (pieces around n).map fun p => { p with chain := front ++ p.chain } := by
  induction n using Node.induction_on generalizing around with
  | step n ih =>
      have hlist : ∀ around, piecesList (front ++ around) n.children =
          (piecesList around n.children).map fun p => { p with chain := front ++ p.chain } := by
        intro around
        rw [piecesList_eq, piecesList_eq, List.map_flatMap]
        exact List.flatMap_congr fun c hc => ih c (mem_childNodes.1 hc) around
      have hentry := hlist (around ++ [n])
      obtain ⟨kind, lead, children, markers, type?⟩ := n
      rw [pieces, pieces]
      split_ifs
      · rw [List.append_assoc, hentry, List.map_cons]
      · exact hlist around

/-! ### What is laid out -/

theorem print_scalarLaid {key : List Char} {value : Node} {edge : Edge}
    (h : ScalarLaid key value edge) : ∃ blanks raw, value = scalarNode blanks raw ∧
      ∀ c ∈ blanks, isSpace c = true := by
  cases h with
  | inLine hblanks => exact ⟨_, _, rfl, hblanks⟩
  | missing => exact ⟨[], [], rfl, by simp⟩

section
variable (around : List Node) (lead raw gap : List Char)

theorem pieces_scalarEntry (blanks text : List Char) :
    pieces around (entryNode lead raw gap (scalarNode blanks text)) =
      [⟨around ++ [entryNode lead raw gap (scalarNode blanks text)], String.ofList lead,
        raw ++ (gap ++ ':' :: (blanks ++ text))⟩] := by
  have hkind : (scalarNode blanks text).kind = .yaml .scalar := rfl
  rw [pieces_entry rfl rfl, pieces_scalar rfl rfl]
  simp [entryNode, ownText, print_scalarNode, Token.print, hkind]

theorem pieces_nestedEntry (children : List Element) :
    pieces around (entryNode lead raw gap (mappingNode children)) =
      ⟨around ++ [entryNode lead raw gap (mappingNode children)], String.ofList lead,
        raw ++ (gap ++ [':'])⟩ ::
        piecesList (around ++ [entryNode lead raw gap (mappingNode children)]) children := by
  rw [pieces_entry rfl rfl, pieces_mapping rfl]
  simp [entryNode, ownText, Token.print, mappingNode]

end

section
variable {front last : Edge} {column : Nat} {es : List Element} (h : Laid front column es last)
include h

theorem Laid.written (around : List Node) :
    written (piecesList around es) = (Node.printList .sequence es).toList := by
  induction h generalizing around with
  | nil => rfl
  | @scalar _ _ _ _ lead raw gap value es _ _ hvalue _ ih =>
      obtain ⟨blanks, text, rfl, _⟩ := print_scalarLaid hvalue
      rw [toList_printList_entry, piecesList, piecesElement, pieces_scalarEntry, written_append,
        written_cons, ih, print_scalarNode]
      simp [Yaml.written]
  | @nested _ _ _ _ _ lead raw gap children es _ _ _ _ _ _ ihchildren ih =>
      rw [toList_printList_entry, piecesList, piecesElement, pieces_nestedEntry, written_append,
        written_cons, ihchildren, ih, print_mappingNode]
      simp

theorem Laid.keyLines (around : List Node) (before behind : List Char) :
    keyLinesList around before behind es = placedLines before behind (piecesList around es) := by
  induction h generalizing around before behind with
  | nil => rfl
  | @scalar _ _ _ _ lead raw gap value es _ _ hvalue hes ih =>
      obtain ⟨blanks, text, rfl, _⟩ := print_scalarLaid hvalue
      rw [piecesList, piecesElement, pieces_scalarEntry, placedLines_append, keyLinesList, ih,
        hes.written]
      simp [entryNode, scalarNode, keyLinesElement, Yaml.keyLines, keyLinesList, placedLines,
        Yaml.written, Element.print, Node.print, Node.printList, Token.print, Layout.delimiters,
        Kind.layout]
  | @nested _ _ _ _ _ lead raw gap children es _ _ _ _ hchildren hes ihchildren ih =>
      rw [piecesList, piecesElement, pieces_nestedEntry, placedLines_append, keyLinesList, ih,
        hes.written]
      simp [entryNode, mappingNode, keyLinesElement, Yaml.keyLines, keyLinesList, placedLines,
        written_cons, hchildren.written, ihchildren, Element.print, Node.print, Node.printList,
        Token.print, Layout.delimiters, Kind.layout]

end

theorem KeyForm.blanks {raw gap : List Char} (h : KeyForm raw gap) :
    ∀ c ∈ gap, isSpace c = true := by
  obtain ⟨q, hq⟩ := h.reads (p := Place.start (raw ++ (gap ++ [':']))) rfl fun _ => rfl
  exact hq.parts.2.2.1

theorem colon_of_keyForm {raw gap : List Char} (h : KeyForm raw gap) (hraw : '\n' ∉ raw)
    (behind : List Char) : ':' ∈ firstLine (raw ++ (gap ++ ':' :: behind)) := by
  have hgap := not_mem_blanks h.blanks
  rw [firstLine_append hraw, firstLine_append hgap]
  simp [firstLine]

theorem Laid.colon {front last : Edge} {column : Nat} {es : List Element}
    (h : Laid front column es last) (hlines : InLine (Node.leavesList es)) (around : List Node) :
    ∀ p ∈ piecesList around es, ':' ∈ firstLine p.text := by
  induction h generalizing around with
  | nil => nofun
  | scalar _ hkey hvalue _ ih =>
      obtain ⟨blanks, text, rfl, _⟩ := print_scalarLaid hvalue
      obtain ⟨hraw, _, hrest⟩ := hlines.entry
      rw [piecesList, piecesElement, pieces_scalarEntry, List.singleton_append]
      exact List.forall_mem_cons.2 ⟨colon_of_keyForm hkey hraw _, ih hrest around⟩
  | nested _ hkey _ _ _ _ ihchildren ih =>
      obtain ⟨hraw, hvalue, hrest⟩ := hlines.entry
      have hchildren := ihchildren (by simpa [mappingNode, Node.leaves] using hvalue)
      rw [piecesList, piecesElement, pieces_nestedEntry, List.cons_append]
      refine List.forall_mem_cons.2 ⟨colon_of_keyForm hkey hraw _, fun p hp => ?_⟩
      exact (List.mem_append.1 hp).elim (hchildren _ p) (ih hrest around p)

/-! ### The document -/

/-- The text of a document behind its marker. -/
def belowMarker (d : Node) : List Char :=
  (Node.printList .sequence
    (d.children.dropWhile fun e => e.token?.any fun t => t.kind == .punct)).toList

section
variable {marker : List Element} {front last : Edge} {column : Nat} {es : List Element}
  {lead : List Char}

theorem print_laidDocument (h : Laid front column es last) :
    (documentNode marker [.node (mappingNode es)] lead).print.toList =
      (Node.printList .sequence marker).toList ++ (written (piecesList [] es) ++ lead) := by
  rw [print_documentNode, h.written, printList_cons, Element.print, print_mappingNode]
  simp [Node.printList]

section
variable (hmarker : MarkerLaid marker front)
include hmarker

theorem belowMarker_documentNode (h : Laid front column es last) :
    belowMarker (documentNode marker [.node (mappingNode es)] lead) =
      written (piecesList [] es) ++ lead := by
  rw [h.written]
  cases hmarker <;>
    simp [belowMarker, documentNode, Element.token?, Node.printList, Element.print, Token.print,
      print_mappingNode, Layout.delimiters]

theorem keyLines_laidDocument (h : Laid front column es last) :
    keyLines [] [] [] (documentNode marker [.node (mappingNode es)] lead) =
      placedLines (Node.printList .sequence marker).toList lead (piecesList [] es) := by
  have hkeys := h.keyLines [] (Node.printList .sequence marker).toList lead
  cases hmarker <;>
    simpa [documentNode, mappingNode, keyLines, keyLinesList, keyLinesElement, Node.printList,
      Element.print, Token.print, Layout.delimiters] using hkeys

end

end

theorem colon_of_keyLines {d : Node} (h : DocumentLaid d) (hlines : InLine d.leaves) :
    ∀ x ∈ keyLines [] [] [] d, ':' ∈ x.2 := by
  obtain @⟨marker, mapping, front, last, lead, hmarker, hmapping, hend⟩ := h
  cases hmapping with
  | none => cases hmarker <;> simp [documentNode, keyLines, keyLinesList, keyLinesElement]
  | @some _ _ es _ hlaid =>
      have hinner : InLine (Node.leavesList es) := fun t ht => hlines t (by
        rw [documentNode, Node.leaves, mem_leavesList]
        exact .inr ⟨mappingNode es, by simp, ht⟩)
      rw [keyLines_laidDocument hmarker hlaid]
      exact fun x hx => mem_line_of_pieces (hlaid.colon hinner []) hx

end Codemod.Yaml
