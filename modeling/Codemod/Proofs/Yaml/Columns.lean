import Codemod.Proofs.Tree.Places
import Codemod.Proofs.Yaml.Pieces
import Codemod.Proofs.Yaml.Shape

/-!
The columns in which the keys of a document stand. A parser that reads a node has passed just the text
that is printed in front of the node, so the column it compares is the one in the printed text. The main
statement gives the form of parsed documents, with one column for each mapping, further in than the
entry that holds it.
-/

namespace Codemod.Yaml

open Codemod.Tree

/-! ### Places in the printed text -/

/-- The text that is printed in front of a place, where no node prints delimiters. -/
def textBefore : Cursor → List Char
  | [] => []
  | frame :: around =>
      textBefore around ++ (frame.node.lead.toList ++
        (Node.printList .sequence (frame.node.children.take frame.index)).toList)

theorem textBefore_child {parent : Node} {cursor : Cursor} {front behind : List Element}
    (h : parent.children = front ++ behind) :
    textBefore (⟨parent, front.length⟩ :: cursor) =
      textBefore cursor ++ (parent.lead.toList ++ (Node.printList .sequence front).toList) := by
  rw [textBefore, h, List.take_left]

/-- The byte column in which an entry begins behind its trivia, where it stands at the place. -/
def keyColumn (cursor : Cursor) (n : Node) : Nat :=
  (Text.indent (String.ofList (textBefore cursor ++ n.lead.toList))).utf8ByteSize

theorem column_text (cs : List Char) :
    (({} : Position).pass cs).column = (Text.indent (String.ofList cs)).utf8ByteSize := by
  have hline := @inLine_lead {} cs (.inr rfl)
  simp only [Position.inLine, Prod.mk.injEq] at hline
  rw [hline.1, margin, column_pass (not_mem_lastLine cs), Text.indent, String.toList_ofList]
  exact Nat.zero_add _

/-! ### Positions -/

theorem position_skip {p next : Place} {lead : List Char} (h : p.skip = .ok (lead, next)) :
    next.position = p.position.pass lead := by
  rw [(skip_eq_ok h).2.1]
  rfl

theorem ScalarAt.position {indent : Nat} {p q : Place} {value : Node} (h : ScalarAt indent p value q) :
    q.position = p.position.pass value.print.toList := by
  cases h with
  | inLine hspaces hhere hraw =>
      obtain ⟨_, _, hleft⟩ := spaces_eq_iff.1 hspaces
      obtain ⟨_, _, hposition⟩ := scalarForm_of_scalarText hraw hhere hleft
      rw [hposition, print_scalarNode, pass_append]
      rfl
  | missing => rw [print_scalarNode]; rfl

theorem KeyAt.position_behind {p next q : Place} {lead raw gap : List Char}
    (hskip : p.skip = .ok (lead, next)) (h : KeyAt next raw gap q) :
    q.position = p.position.pass (lead ++ (raw ++ (gap ++ [':']))) := by
  rw [pass_append, ← position_skip hskip]
  exact h.parts.2.2.2

/-- An entry is read in a column, with the trivia in front of it. -/
inductive EntryAt (column : Nat) (p : Place) : Node → Place → Prop where
  | scalar {next q r : Place} {lead raw gap : List Char} {value : Node}
      (hskip : p.skip = .ok (lead, next)) (hcolumn : next.column = column) (hkey : KeyAt next raw gap q)
      (hvalue : ScalarAt column q value r) : EntryAt column p (entryNode lead raw gap value) r
  | nested {next q r : Place} {lead raw gap : List Char} {below : Nat} {children : List Element}
      (hskip : p.skip = .ok (lead, next)) (hcolumn : next.column = column) (hkey : KeyAt next raw gap q)
      (hdeeper : column < below) (hne : children ≠ []) (hchildren : Reads below q children r) :
      EntryAt column p (entryNode lead raw gap (mappingNode children)) r

theorem Reads.uncons {column : Nat} {p s : Place} {e : Element} {es : List Element}
    (h : Reads column p (e :: es) s) :
    ∃ n r, e = .node n ∧ EntryAt column p n r ∧ Reads column r es s := by
  cases h with
  | scalar hskip _ hcolumn hkey hvalue h => exact ⟨_, _, rfl, .scalar hskip hcolumn hkey hvalue, h⟩
  | nested hskip _ hcolumn hkey _ hskip' hahead' _ hdeeper hchildren h =>
      have hne := hchildren.ne_nil hskip' hahead' rfl
      exact ⟨_, _, rfl, .nested hskip hcolumn hkey hdeeper hne hchildren, h⟩

theorem position_entryNode {p next q r : Place} {lead raw gap : List Char} {value : Node}
    (hskip : p.skip = .ok (lead, next)) (hkey : KeyAt next raw gap q)
    (hvalue : r.position = q.position.pass value.print.toList) :
    r.position = p.position.pass (entryNode lead raw gap value).print.toList := by
  rw [hvalue, hkey.position_behind hskip, ← pass_append, print_entryNode]
  simp

theorem Reads.position {column : Nat} {p q : Place} {es : List Element} (h : Reads column p es q) :
    q.position = p.position.pass (Node.printList .sequence es).toList := by
  induction h with
  | done => rfl
  | scalar hskip _ _ hkey hvalue _ ih =>
      rw [ih, position_entryNode hskip hkey hvalue.position, ← pass_append, printList_cons,
        Element.print, String.toList_append]
  | @nested _ p _ q _ r _ _ _ _ _ children _ hskip _ _ hkey _ _ _ _ _ _ _ ihchildren ih =>
      have hvalue : r.position = q.position.pass (mappingNode children).print.toList := by
        rw [ihchildren, print_mappingNode]
      rw [ih, position_entryNode hskip hkey hvalue, ← pass_append, printList_cons, Element.print,
        String.toList_append]

theorem EntryAt.position {column : Nat} {p r : Place} {n : Node} (h : EntryAt column p n r) :
    r.position = p.position.pass n.print.toList := by
  cases h with
  | scalar hskip _ hkey hvalue => exact position_entryNode hskip hkey hvalue.position
  | nested hskip _ hkey _ _ hchildren =>
      refine position_entryNode hskip hkey ?_
      rw [hchildren.position, print_mappingNode]

theorem Reads.behind {column : Nat} {p q : Place} {front es : List Element}
    (h : Reads column p (front ++ es) q) :
    ∃ r, r.position = p.position.pass (Node.printList .sequence front).toList ∧ Reads column r es q := by
  induction front generalizing p with
  | nil => exact ⟨p, rfl, h⟩
  | cons e front ih =>
      obtain ⟨n, s, rfl, hn, hrest⟩ := h.uncons
      obtain ⟨r, hr, hes⟩ := ih hrest
      refine ⟨r, ?_, hes⟩
      rw [hr, hn.position, ← pass_append, printList_cons, Element.print, String.toList_append]

/-! ### Nodes and the text in front of them -/

/-- The node is read where the parser has passed the text, as an entry or as the value of one, or the
mapping of the document. -/
inductive ReadBehind (before : List Char) : Node → Prop where
  | mapping {column : Nat} {p q : Place} {es : List Element}
      (hplace : p.position = ({} : Position).pass before) (hne : es ≠ []) (h : Reads column p es q) :
      ReadBehind before (mappingNode es)
  | entry {column : Nat} {p q : Place} {n : Node} (hplace : p.position = ({} : Position).pass before)
      (h : EntryAt column p n q) : ReadBehind before n
  | scalar {n : Node} {t : Token} (hkind : n.kind = .yaml .scalar) (hes : n.children = [.token t]) :
      ReadBehind before n

theorem scalar_of_scalarAt {indent : Nat} {p q : Place} {value : Node} (h : ScalarAt indent p value q) :
    value.kind = .yaml .scalar ∧ ∃ t, value.children = [.token t] := by
  cases h <;> exact ⟨rfl, _, rfl⟩

theorem EntryAt.value {column : Nat} {p r : Place} {n : Node} (h : EntryAt column p n r) {before : List Char}
    (hplace : p.position = ({} : Position).pass before) :
    ∃ lead raw gap value, n = entryNode lead raw gap value ∧ raw ≠ [] ∧
      ReadBehind (before ++ (lead ++ (raw ++ (gap ++ [':'])))) value := by
  cases h with
  | scalar hskip _ hkey hvalue =>
      obtain ⟨hkind, t, ht⟩ := scalar_of_scalarAt hvalue
      exact ⟨_, _, _, _, rfl, hkey.parts.2.1, .scalar hkind ht⟩
  | nested hskip _ hkey _ hne hchildren =>
      refine ⟨_, _, _, _, rfl, hkey.parts.2.1, .mapping ?_ hne hchildren⟩
      rw [hkey.position_behind hskip, hplace]
      exact (pass_append ..).symm

theorem ReadBehind.child {before : List Char} {n c : Node} {front behind : List Element}
    (h : ReadBehind before n) (hes : n.children = front ++ .node c :: behind) :
    ReadBehind (before ++ (n.lead.toList ++ (Node.printList .sequence front).toList)) c := by
  cases h with
  | mapping hplace _ h =>
      obtain rfl : _ = front ++ .node c :: behind := hes
      obtain ⟨r, hr, hc⟩ := h.behind
      obtain ⟨n, s, hn, hentry, _⟩ := hc.uncons
      cases hn
      refine .entry ?_ hentry
      rw [hr, hplace, ← pass_append]
      rfl
  | entry hplace h =>
      obtain ⟨lead, raw, gap, value, rfl, _, hvalue⟩ := h.value hplace
      obtain ⟨rfl, hcolon⟩ : front = [.token ⟨.text, "", String.ofList raw⟩,
          .token ⟨.punct, String.ofList gap, ":"⟩] ∧ value = c := by
        rcases front with _ | ⟨a, _ | ⟨b, _ | ⟨d, front⟩⟩⟩ <;> simp_all [entryNode]
      subst hcolon
      simpa [entryNode, Node.printList, Element.print, Token.print, Layout.delimiters] using hvalue
  | scalar _ hes' =>
      rw [hes'] at hes
      rcases front with _ | ⟨a, front⟩ <;> simp at hes

theorem ReadBehind.kind {before : List Char} {n : Node} (h : ReadBehind before n) :
    ∃ kind, n.kind = .yaml kind := by
  cases h with
  | mapping => exact ⟨_, rfl⟩
  | entry _ h => cases h <;> exact ⟨_, rfl⟩
  | scalar hkind => exact ⟨_, hkind⟩

/-! ### Documents -/

/-- A document holds a marker or none, a mapping or none, and the token at its end. -/
structure DocumentForm (d : Node) : Prop where
  lead : d.lead = ""
  children : ∃ marker mapping last, d.children = marker ++ mapping ++ [.token ⟨.eof, last, ""⟩] ∧
    (marker = [] ∨ ∃ lead, marker = [.token ⟨.punct, lead, "---"⟩]) ∧
      (mapping = [] ∨ ∃ m, mapping = [.node m] ∧ m.kind = .yaml .mapping)

/-- A mapping holds entries only, at least one, and no trivia of its own. -/
structure MappingForm (n : Node) : Prop where
  lead : n.lead = ""
  ne_nil : n.children ≠ []
  entries : EntriesOnly n.children

/-- An entry holds a key, which is not empty, a colon and a value. -/
structure EntryForm (n : Node) (key : String) (value : Node) : Prop where
  children : ∃ gap, n.children = [.token ⟨.text, "", key⟩, .token ⟨.punct, gap, ":"⟩, .node value]
  ne_empty : key ≠ ""
  value : IsValue value

theorem marker_position {p q : Place} {es : List Element} (h : marker p = .ok (es, q)) :
    q.position = p.position.pass (Node.printList .sequence es).toList ∧
      (es = [] ∨ ∃ lead, es = [.token ⟨.punct, lead, "---"⟩]) := by
  obtain ⟨lead, next, hskip, ⟨_, rfl, rfl⟩ | ⟨_, rfl, rfl, _⟩⟩ := marker_eq_ok.1 h
  · exact ⟨rfl, .inl rfl⟩
  · refine ⟨?_, .inr ⟨_, rfl⟩⟩
    have hprint : (Node.printList .sequence [.token ⟨.punct, String.ofList lead, "---"⟩]).toList =
        lead ++ ['-', '-', '-'] := by
      simp [Node.printList, Element.print, Token.print, Layout.delimiters]
    rw [hprint, pass_append, ← position_skip hskip]
    rfl

section
variable {source : String} {document : Node} (hparse : parseDocument source = .ok document)
include hparse

theorem document_of_parse : DocumentForm document ∧ ∀ {c front behind},
    document.children = front ++ .node c :: behind →
      ReadBehind (Node.printList .sequence front).toList c := by
  obtain ⟨start, p, mapping, q, last, hmarker, hmapping, hlast, rfl⟩ := parseDocument_eq_ok.1 hparse
  obtain ⟨hposition, hstart⟩ := marker_position hmarker
  obtain ⟨tail, _, _, _, rfl⟩ := documentEnd_eq_ok.1 hlast
  obtain ⟨lead, next, hskip, ⟨_, rfl, _⟩ | ⟨hahead, entries, rfl, hentries⟩⟩ :=
    rootMapping_eq_ok.1 hmapping
  · refine ⟨⟨rfl, start, [], _, rfl, hstart, .inl rfl⟩, fun {c front behind} hes => ?_⟩
    replace hes : start ++ [] ++ [.token ⟨.eof, String.ofList tail, ""⟩] = front ++ .node c :: behind := hes
    have hc : .node c ∈ start ++ [] ++ [.token ⟨.eof, String.ofList tail, ""⟩] := by
      rw [hes]
      simp
    rcases hstart with rfl | ⟨lead, rfl⟩ <;> simp at hc
  · refine ⟨⟨rfl, start, _, _, rfl, hstart, .inr ⟨_, rfl, rfl⟩⟩, fun {c front behind} hes => ?_⟩
    obtain ⟨rfl, rfl⟩ : front = start ∧ c = mappingNode entries := by
      rcases hstart with rfl | ⟨lead, rfl⟩ <;>
        rcases front with _ | ⟨a, _ | ⟨b, _ | ⟨d, front⟩⟩⟩ <;> simp_all
    exact .mapping hposition (hentries.ne_nil hskip hahead rfl) hentries

theorem readBehind_of_stands {cursor : Cursor} {n : Node} (h : Stands document cursor n) :
    cursor = [] ∧ n = document ∨ ReadBehind (textBefore cursor) n := by
  induction h with
  | root => exact .inl ⟨rfl, rfl⟩
  | child _ hchildren ih =>
      obtain ⟨hform, hdocument⟩ := document_of_parse hparse
      rw [textBefore_child hchildren]
      rcases ih with ⟨rfl, rfl⟩ | hparent
      · refine .inr ?_
        rw [hform.lead]
        exact hdocument hchildren
      · exact .inr (hparent.child hchildren)

theorem print_of_stands {cursor : Cursor} {n : Node} (h : Stands document cursor n) :
    ∃ behind, document.print.toList = textBefore cursor ++ (n.print.toList ++ behind) := by
  induction h with
  | root => exact ⟨[], by simp [textBefore]⟩
  | @child cursor parent n front after hparent hchildren ih =>
      obtain ⟨behind, hprint⟩ := ih
      obtain ⟨kind, hkind⟩ : ∃ kind, parent.kind = .yaml kind := by
        rcases readBehind_of_stands hparse hparent with ⟨_, rfl⟩ | hread
        · exact ⟨_, (shaped_of_parseDocument hparse).kind⟩
        · exact hread.kind
      refine ⟨(Node.printList .sequence after).toList ++ behind, ?_⟩
      rw [hprint, print_yaml hkind, hchildren, textBefore_child hchildren, printList_append,
        printList_cons, Element.print]
      simp

end

section
variable {before : List Char} {n : Node} (h : ReadBehind before n)
include h

theorem ReadBehind.mappingForm (hkind : n.kind = .yaml .mapping) : MappingForm n := by
  cases h with
  | mapping _ hne h => exact ⟨rfl, hne, (shaped_reads h).1⟩
  | entry _ h => cases h <;> cases hkind
  | scalar hscalar => cases hscalar.symm.trans hkind

theorem ReadBehind.entryAt (hkind : n.kind = .yaml .entry) :
    ∃ column p q, p.position = ({} : Position).pass before ∧ EntryAt column p n q := by
  cases h with
  | mapping => cases hkind
  | entry hplace h => exact ⟨_, _, _, hplace, h⟩
  | scalar hscalar => cases hscalar.symm.trans hkind

end

/-! ### Columns -/

/-- The entries of a mapping at the place have their keys in the column. -/
def KeysAt (cursor : Cursor) (n : Node) (column : Nat) : Prop :=
  ∀ i e, n.children[i]? = some (.node e) → keyColumn (⟨n, i⟩ :: cursor) e = column

theorem EntryAt.keyColumn_eq {column : Nat} {p q : Place} {n : Node} {cursor : Cursor}
    (h : EntryAt column p n q) (hplace : p.position = ({} : Position).pass (textBefore cursor)) :
    keyColumn cursor n = column := by
  obtain ⟨lead, next, hskip, hcolumn, hn⟩ : ∃ lead next, p.skip = .ok (lead, next) ∧
      next.column = column ∧ n.lead = String.ofList lead := by
    cases h <;> exact ⟨_, _, ‹_›, ‹_›, rfl⟩
  have hposition : next.position = ({} : Position).pass (textBefore cursor ++ n.lead.toList) := by
    rw [position_skip hskip, hplace, ← pass_append, hn, String.toList_ofList]
  rw [keyColumn, ← column_text, ← hposition]
  exact hcolumn

theorem Reads.keysAt {column : Nat} {p q : Place} {n : Node} {cursor : Cursor}
    (h : Reads column p n.children q)
    (hplace : p.position = ({} : Position).pass (textBefore cursor ++ n.lead.toList)) :
    KeysAt cursor n column := by
  intro i e he
  obtain ⟨hi, he⟩ := List.getElem?_eq_some_iff.1 he
  have hes : n.children = n.children.take i ++ .node e :: n.children.drop (i + 1) := by
    rw [← he, List.getElem_cons_drop, List.take_append_drop]
  rw [hes] at h
  obtain ⟨r, hr, hrest⟩ := h.behind
  obtain ⟨n', s, hn', hentry, _⟩ := hrest.uncons
  cases hn'
  refine hentry.keyColumn_eq ?_
  rw [hr, hplace, ← pass_append, textBefore, List.append_assoc]

theorem ReadBehind.keysAt {cursor : Cursor} {n : Node} (h : ReadBehind (textBefore cursor) n)
    (hkind : n.kind = .yaml .mapping) : ∃ column, KeysAt cursor n column := by
  cases h with
  | mapping hplace _ h => exact ⟨_, h.keysAt (by simpa [mappingNode] using hplace)⟩
  | entry _ h => cases h <;> cases hkind
  | scalar hscalar => cases hscalar.symm.trans hkind

theorem EntryAt.form {column : Nat} {p q : Place} {n : Node} {cursor : Cursor}
    (h : EntryAt column p n q) (hplace : p.position = ({} : Position).pass (textBefore cursor)) :
    ∃ key value, EntryForm n key value ∧ (value.kind = .yaml .mapping →
      ∃ below, keyColumn cursor n < below ∧ KeysAt (⟨n, 2⟩ :: cursor) value below) := by
  have hcolumn := h.keyColumn_eq hplace
  have hkey : ∀ {raw : List Char}, raw ≠ [] → String.ofList raw ≠ "" :=
    fun hraw hempty => hraw (String.ofList_eq_empty_iff.1 hempty)
  cases h with
  | @scalar _ _ _ _ _ _ value hskip _ hkeyAt hvalue =>
      obtain ⟨hscalar, _⟩ := scalar_of_scalarAt hvalue
      refine ⟨_, value, ⟨⟨_, rfl⟩, hkey hkeyAt.parts.2.1, .inl hscalar⟩, fun hmapping => ?_⟩
      rw [hscalar] at hmapping
      cases hmapping
  | @nested next q _ lead raw gap below children hskip _ hkeyAt hdeeper _ hchildren =>
      refine ⟨_, mappingNode children, ⟨⟨_, rfl⟩, hkey hkeyAt.parts.2.1, .inr rfl⟩, fun _ => ?_⟩
      refine ⟨below, hcolumn ▸ hdeeper, Reads.keysAt (p := q) hchildren ?_⟩
      rw [hkeyAt.position_behind hskip, hplace, ← pass_append]
      simp [textBefore, entryNode, mappingNode, Node.printList, Element.print, Token.print,
        Layout.delimiters]

/-- A document that was read holds a marker, a mapping and the token at its end, of which the first two
may be missing. Its mappings hold entries, and those hold a key, a colon and a value. The keys of a
mapping stand in one column of the printed text, which is further in than the key of the entry that
holds the mapping. -/
theorem parsed_columns {source : String} {document : Node}
    (hparse : parseDocument source = .ok document) :
    DocumentForm document ∧ ∀ cursor n, Stands document cursor n →
      (n.kind = .yaml .mapping → MappingForm n ∧ ∃ column, KeysAt cursor n column) ∧
      (n.kind = .yaml .entry → ∃ key value, EntryForm n key value ∧
        (∃ behind, document.print.toList =
          textBefore cursor ++ (n.lead.toList ++ (key.toList ++ behind))) ∧
        (value.kind = .yaml .mapping →
          ∃ below, keyColumn cursor n < below ∧ KeysAt (⟨n, 2⟩ :: cursor) value below)) := by
  refine ⟨(document_of_parse hparse).1, fun cursor n hstands => ?_⟩
  obtain ⟨rfl, rfl⟩ | hread := readBehind_of_stands hparse hstands
  · have hkind := (shaped_of_parseDocument hparse).kind
    constructor <;> intro hother <;> cases hkind.symm.trans hother
  refine ⟨fun hkind => ⟨hread.mappingForm hkind, hread.keysAt hkind⟩, fun hkind => ?_⟩
  obtain ⟨column, p, q, hplace, hentry⟩ := hread.entryAt hkind
  obtain ⟨key, value, hform, hbelow⟩ := hentry.form hplace
  refine ⟨key, value, hform, ?_, hbelow⟩
  obtain ⟨behind, hprint⟩ := print_of_stands hparse hstands
  obtain ⟨gap, hchildren⟩ := hform.children
  refine ⟨gap.toList ++ (':' :: (value.print.toList ++ behind)), ?_⟩
  rw [hprint, print_yaml hkind, hchildren]
  simp [Node.printList, Element.print, Token.print, Layout.delimiters]

/-- A mapping of two keys in a mapping, behind a marker. -/
theorem parsed_columns_nested :
    ∃ document outer entry inner, parseDocument "---\nk:\n  a: 1\n  b: 2\n" = .ok document ∧
      Stands document [⟨outer, 0⟩, ⟨document, 1⟩] entry ∧ MappingForm outer ∧
      EntryForm entry "k" inner ∧ inner.children.length = 2 ∧
        ∃ below, keyColumn [⟨outer, 0⟩, ⟨document, 1⟩] entry < below ∧
          KeysAt [⟨entry, 2⟩, ⟨outer, 0⟩, ⟨document, 1⟩] inner below := by
  obtain ⟨inner, hinner⟩ : ∃ inner, inner =
      mappingNode [.node (entryNode "\n  ".toList ['a'] [] (scalarNode [' '] ['1'])),
        .node (entryNode "\n  ".toList ['b'] [] (scalarNode [' '] ['2']))] := ⟨_, rfl⟩
  obtain ⟨entry, hentry⟩ : ∃ entry, entry = entryNode ['\n'] ['k'] [] inner := ⟨_, rfl⟩
  obtain ⟨outer, houter⟩ : ∃ outer, outer = mappingNode [.node entry] := ⟨_, rfl⟩
  obtain ⟨document, hdocument⟩ : ∃ document : Node, document =
      { kind := .yaml .document
        lead := ""
        children := [.token ⟨.punct, "", "---"⟩, .node outer, .token ⟨.eof, "\n", ""⟩] } := ⟨_, rfl⟩
  have hparse : parseDocument "---\nk:\n  a: 1\n  b: 2\n" = .ok document := by
    rw [hdocument, houter, hentry, hinner]
    rfl
  have hfront : document.children =
      [.token ⟨.punct, "", "---"⟩] ++ .node outer :: [.token ⟨.eof, "\n", ""⟩] := by
    rw [hdocument]
    rfl
  have honly : outer.children = [] ++ .node entry :: [] := by
    rw [houter]
    rfl
  have houterAt : Stands document [⟨document, 1⟩] outer := .child .root hfront
  have hentryAt : Stands document [⟨outer, 0⟩, ⟨document, 1⟩] entry := .child houterAt honly
  obtain ⟨hform, -⟩ := ((parsed_columns hparse).2 _ _ houterAt).1 (by rw [houter]; rfl)
  obtain ⟨key, value, hentryForm, -, hbelow⟩ :=
    ((parsed_columns hparse).2 _ _ hentryAt).2 (by rw [hentry]; rfl)
  obtain ⟨rfl, rfl⟩ : key = "k" ∧ value = inner := by
    obtain ⟨gap, hchildren⟩ := hentryForm.children
    rw [hentry] at hchildren
    simp only [entryNode, List.cons.injEq, Element.token.injEq, Element.node.injEq,
      Token.mk.injEq] at hchildren
    exact ⟨hchildren.1.2.2.symm, hchildren.2.2.1.symm⟩
  refine ⟨document, outer, entry, value, hparse, hentryAt, hform, hentryForm, by rw [hinner]; rfl, ?_⟩
  exact hbelow (by rw [hinner]; rfl)

end Codemod.Yaml
