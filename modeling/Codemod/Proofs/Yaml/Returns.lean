import Codemod.Proofs.Yaml.KeyLines
import Codemod.Proofs.Yaml.LineTexts

/-!
Texts in which a carriage return stands in front of every line feed. In a document with such lines
no text runs over its line, so that all its line feeds stand in trivia, and each piece of trivia has
carriage returns of its own.
-/

namespace Codemod.Yaml

open Codemod.Tree

/-- A carriage return stands in front of every line feed, behind a text that ends with this
character. -/
def returnsBehind (before? : Option Char) : List Char → Bool
  | [] => true
  | c :: cs => (c != '\n' || before? == some '\r') && returnsBehind (some c) cs

/-- A carriage return stands in front of every line feed. -/
def Returns (cs : List Char) : Prop :=
  returnsBehind none cs = true

instance (cs : List Char) : Decidable (Returns cs) :=
  inferInstanceAs (Decidable (returnsBehind none cs = true))

/-- Characters that stay in their line and do not end with a part of a line break. -/
structure Inline (cs : List Char) : Prop where
  ne_nil : cs ≠ []
  line : '\n' ∉ cs
  last : cs.getLast? ≠ some '\r'

/-! ### Texts put together -/

section
variable {xs ys : List Char}

theorem returnsBehind_append (before? : Option Char) (xs ys : List Char) :
    returnsBehind before? (xs ++ ys) =
      (returnsBehind before? xs && returnsBehind (xs.getLast?.or before?) ys) := by
  induction xs generalizing before? with
  | nil => rfl
  | cons c xs ih =>
      rw [List.cons_append, returnsBehind, returnsBehind, ih, Bool.and_assoc]
      cases xs with
      | nil => rfl
      | cons d xs => rw [List.getLast?_cons_cons, Option.or_of_isSome (by simp),
          Option.or_of_isSome (by simp)]

theorem Returns.behind (h : Returns xs) (before? : Option Char) :
    returnsBehind before? xs = true := by
  cases xs with
  | nil => rfl
  | cons c xs =>
      simp only [Returns, returnsBehind, Bool.and_eq_true, Bool.or_eq_true] at h ⊢
      exact ⟨.inl (h.1.resolve_right (by simp)), h.2⟩

theorem returnsBehind_eq {before? : Option Char} (h : before? ≠ some '\r') (xs : List Char) :
    returnsBehind before? xs = returnsBehind none xs := by
  cases xs with
  | nil => rfl
  | cons c xs => simp [returnsBehind, beq_eq_false_iff_ne.2 h]

theorem Returns.append (hxs : Returns xs) (hys : Returns ys) : Returns (xs ++ ys) := by
  rw [Returns, returnsBehind_append, hxs, hys.behind]
  rfl

theorem Returns.front (h : Returns (xs ++ ys)) : Returns xs := by
  rw [Returns, returnsBehind_append, Bool.and_eq_true] at h
  exact h.1

theorem returns_line (h : '\n' ∉ xs) : Returns xs := by
  have hline : ∀ before?, returnsBehind before? xs = true := by
    induction xs with
    | nil => exact fun _ => rfl
    | cons c xs ih =>
        rw [List.mem_cons, not_or] at h
        intro before?
        simp [returnsBehind, ih h.2, Ne.symm h.1]
  exact hline none

theorem returns_break (front behind : List Char) : Returns (front ++ '\n' :: behind) ↔
    Returns front ∧ front.getLast? = some '\r' ∧ Returns behind := by
  have hbehind := @returnsBehind_eq (some '\n') (by decide) behind
  rw [Returns, returnsBehind_append, returnsBehind, hbehind, Option.or_none]
  simp [Returns]

theorem Inline.returns (h : Inline xs) : Returns (xs ++ ys) ↔ Returns ys := by
  rw [Returns, returnsBehind_append, show returnsBehind none xs = true from returns_line h.line,
    Bool.true_and, Option.or_none, returnsBehind_eq h.last, Returns]

theorem returns_between {lead : List Char} (h : Inline xs) :
    Returns (lead ++ (xs ++ ys)) ↔ Returns lead ∧ Returns ys := by
  refine ⟨fun hall => ⟨hall.front, ?_⟩, fun ⟨hlead, hys⟩ => hlead.append (h.returns.2 hys)⟩
  have hlast : ∀ before?, xs.getLast?.or before? = xs.getLast? := fun before? =>
    Option.or_of_isSome (by simp [h.ne_nil])
  rw [Returns, returnsBehind_append, Bool.and_eq_true, returnsBehind_append, Bool.and_eq_true, hlast,
    returnsBehind_eq h.last] at hall
  exact hall.2.2

theorem Inline.append (hxs : '\n' ∉ xs) (h : Inline ys) : Inline (xs ++ ys) := by
  refine ⟨by simp [h.ne_nil], by simp [hxs, h.line], ?_⟩
  rw [List.getLast?_append_of_ne_nil _ h.ne_nil]
  exact h.last

/-- Where the pieces stay in their lines, the line feeds are those of the trivia. -/
theorem returns_written {ps : List Piece} (h : ∀ p ∈ ps, Inline p.text) (lead : List Char) :
    Returns (written ps ++ lead) ↔ (∀ p ∈ ps, Returns p.lead.toList) ∧ Returns lead := by
  induction ps with
  | nil => simp [written]
  | cons p ps ih =>
      obtain ⟨hp, hps⟩ := List.forall_mem_cons.1 h
      rw [written_cons, List.append_assoc, List.append_assoc, returns_between hp, ih hps,
        List.forall_mem_cons, and_assoc]

end

/-! ### Texts that are read -/

/-- A part of a line break stands behind a backslash only, and not at the end. -/
def Escaped (raw : List Char) : Prop :=
  ∀ front c behind, raw = front ++ c :: behind → isBreak c = true →
    front.getLast? = some '\\' ∧ behind ≠ []

theorem escaped_of_unbroken {raw : List Char} (h : ∀ c ∈ raw, isBreak c = false) : Escaped raw := by
  rintro front c behind rfl hbreak
  rw [h c (by simp)] at hbreak
  cases hbreak

theorem Escaped.inline {raw : List Char} (h : Escaped raw) (hne : raw ≠ []) (hline : '\n' ∉ raw) :
    Inline raw := by
  refine ⟨hne, hline, fun hlast => ?_⟩
  obtain ⟨front, hfront⟩ := List.getLast?_eq_some_iff.1 hlast
  exact (h front '\r' [] hfront rfl).2 rfl

theorem Escaped.line {raw : List Char} (h : Escaped raw) {before behind : List Char}
    (hreturns : Returns (before ++ raw ++ behind)) : '\n' ∉ raw := by
  intro hbreak
  obtain ⟨front, rest, rfl⟩ := List.append_of_mem hbreak
  obtain ⟨hescape, _⟩ := h front '\n' rest rfl rfl
  rw [show before ++ (front ++ '\n' :: rest) ++ behind =
    (before ++ front) ++ '\n' :: (rest ++ behind) by simp, returns_break] at hreturns
  have hreturn := hreturns.2.1
  rw [List.getLast?_append, hescape] at hreturn
  cases hreturn

theorem escaped_cons {c : Char} {raw : List Char} (hc : isBreak c = false) (h : Escaped raw) :
    Escaped (c :: raw) := by
  intro front d behind hraw hbreak
  cases front with
  | nil =>
      obtain ⟨rfl, _⟩ := List.cons.inj hraw
      rw [hc] at hbreak
      cases hbreak
  | cons e front =>
      obtain ⟨rfl, rfl⟩ := List.cons.inj hraw
      obtain ⟨hescape, hne⟩ := h front d behind rfl hbreak
      exact ⟨by rw [List.getLast?_cons, hescape]; rfl, hne⟩

theorem escaped_escape (d : Char) {raw : List Char} (hne : raw ≠ []) (h : Escaped raw) :
    Escaped ('\\' :: d :: raw) := by
  intro front e behind hraw hbreak
  rcases front with _ | ⟨c, _ | ⟨c', front⟩⟩ <;>
    simp only [List.nil_append, List.cons_append, List.cons.injEq] at hraw
  · rw [← hraw.1] at hbreak
    cases hbreak
  · obtain ⟨rfl, rfl, rfl⟩ := hraw
    exact ⟨rfl, hne⟩
  · obtain ⟨rfl, rfl, rfl⟩ := hraw
    obtain ⟨hescape, hne⟩ := h front e behind rfl hbreak
    exact ⟨by rw [List.getLast?_cons_cons, List.getLast?_cons, hescape]; rfl, hne⟩

theorem Enclosed.escaped {quote : Char} {inner : List Char} (hquote : quote = '"' ∨ quote = '\'')
    (h : Enclosed quote inner) : Escaped (inner ++ [quote]) := by
  have hbreak := isBreak_of_quote hquote
  induction h with
  | nil => exact escaped_of_unbroken (by simpa using hbreak)
  | plain hc _ _ _ ih => exact escaped_cons hc ih
  | escape _ d _ ih => exact escaped_escape d (by simp) ih
  | doubled _ _ ih => exact escaped_cons hbreak (escaped_cons hbreak ih)

theorem LineText.escaped {raw : List Char} (h : LineText raw) : Escaped raw := by
  cases h with
  | plain hline => exact escaped_of_unbroken hline
  | quoted hquote henclosed => exact escaped_cons (isBreak_of_quote hquote) (henclosed.escaped hquote)

theorem escaped_scalarAt {indent : Nat} {p q : Place} {value : Node}
    (h : ScalarAt indent p value q) : ∀ t ∈ value.leaves, Escaped t.text.toList := by
  cases h with
  | inLine _ _ hraw =>
      simpa [scalarNode, Node.leaves, Node.leavesList, Element.leaves] using
        (lineText_scalarText hraw).escaped
  | missing =>
      simpa [scalarNode, Node.leaves, Node.leavesList, Element.leaves] using
        @escaped_of_unbroken [] (by simp)

theorem escaped_entry {lead raw gap : List Char} {value : Node} {es : List Element}
    (hraw : Escaped raw) (hvalue : ∀ t ∈ value.leaves, Escaped t.text.toList)
    (hes : ∀ t ∈ Node.leavesList es, Escaped t.text.toList) :
    ∀ t ∈ Node.leavesList (.node (entryNode lead raw gap value) :: es), Escaped t.text.toList := by
  intro t ht
  simp only [Node.leavesList, Element.leaves, entryNode, Node.leaves, List.mem_append, List.mem_cons,
    List.not_mem_nil, or_false, List.append_nil] at ht
  obtain (rfl | rfl | ht) | ht := ht
  · simpa using hraw
  · exact escaped_of_unbroken (by simp [isBreak])
  · exact hvalue t ht
  · exact hes t ht

theorem escaped_reads {indent : Nat} {p q : Place} {es : List Element} (h : Reads indent p es q) :
    ∀ t ∈ Node.leavesList es, Escaped t.text.toList := by
  induction h with
  | done => nofun
  | scalar _ _ _ hkey hvalue _ ih =>
      obtain ⟨_, _, hread, _⟩ := hkey.reads
      exact escaped_entry (lineText_key hread).escaped (escaped_scalarAt hvalue) ih
  | nested _ _ _ hkey _ _ _ _ _ _ _ ihchildren ih =>
      obtain ⟨_, _, hread, _⟩ := hkey.reads
      exact escaped_entry (lineText_key hread).escaped ihchildren ih

theorem escaped_of_parseDocument {source : String} {d : Node} (h : parseDocument source = .ok d) :
    ∀ t ∈ d.leaves, Escaped t.text.toList := by
  obtain ⟨start, p, mapping, q, last, hmarker, hmapping, hlast, rfl⟩ := parseDocument_eq_ok.1 h
  obtain ⟨_, _, _, _, rfl⟩ := documentEnd_eq_ok.1 hlast
  intro t ht
  rw [leaves_eq, mem_leavesList] at ht
  simp only [List.mem_append, List.mem_singleton] at ht
  obtain ((ht | ht) | ht) | ⟨c, (hc | hc) | hc, ht⟩ := ht
  · obtain ⟨_, _, _, ⟨_, rfl, _⟩ | ⟨_, rfl, _⟩⟩ := marker_eq_ok.1 hmarker
    · cases ht
    · obtain rfl := Element.token.inj (List.mem_singleton.1 ht)
      exact escaped_of_unbroken (by simp [isBreak])
  · obtain ⟨_, _, _, ⟨_, rfl, _⟩ | ⟨_, _, rfl, _⟩⟩ := rootMapping_eq_ok.1 hmapping
    · cases ht
    · simp at ht
  · obtain rfl := Element.token.inj ht
    exact escaped_of_unbroken (by simp)
  · obtain ⟨_, _, _, ⟨_, rfl, _⟩ | ⟨_, rfl, _⟩⟩ := marker_eq_ok.1 hmarker <;> simp at hc
  · obtain ⟨_, _, _, ⟨_, rfl, _⟩ | ⟨_, entries, rfl, hentries⟩⟩ := rootMapping_eq_ok.1 hmapping
    · cases hc
    · obtain rfl := Element.node.inj (List.mem_singleton.1 hc)
      exact escaped_reads hentries t ht
  · cases hc

theorem text_isInfix {t : Token} {n : Node} (h : t ∈ n.leaves) :
    t.text.toList <:+: n.print.toList := by
  have hchild : ∀ {layout : Layout} {e : Element} {es : List Element}, e ∈ es →
      e.print.toList <:+: (Node.printList layout es).toList := by
    intro layout e es he
    induction es with
    | nil => cases he
    | cons e' es ih =>
        rw [Node.printList, String.toList_append, String.toList_append]
        rcases List.mem_cons.1 he with rfl | he
        · exact ((List.prefix_append _ _).trans (List.prefix_append _ _)).isInfix
        · exact (ih he).trans (List.suffix_append _ _).isInfix
  induction n using Node.induction_on with
  | step n ih =>
      have hprint : (Node.printList n.kind.layout n.children).toList <:+: n.print.toList := by
        obtain ⟨kind, lead, children, markers, type?⟩ := n
        rw [Node.print, String.toList_append]
        exact (List.suffix_append _ _).isInfix
      rw [leaves_eq, mem_leavesList] at h
      refine List.IsInfix.trans ?_ hprint
      obtain h | ⟨c, hc, h⟩ := h
      · refine List.IsInfix.trans ?_ (hchild h)
        rw [Element.print, Token.print, String.toList_append]
        exact (List.suffix_append _ _).isInfix
      · exact (ih c hc h).trans (hchild hc)

theorem inLine_of_returns {source : String} {d : Node} (h : parseDocument source = .ok d)
    (hreturns : Returns source.toList) : InLine d.leaves := by
  intro t ht
  obtain ⟨before, behind, hprint⟩ := text_isInfix ht
  rw [print_of_parseDocument h] at hprint
  rw [← hprint] at hreturns
  exact (escaped_of_parseDocument h t ht).line hreturns

/-! ### Pieces -/

theorem KeyForm.escaped {raw gap : List Char} (h : KeyForm raw gap) : Escaped raw := by
  obtain ⟨_, hkey⟩ := h.reads (p := Place.start (raw ++ (gap ++ [':']))) rfl fun _ => rfl
  obtain ⟨_, _, hread, _⟩ := hkey.reads
  exact (lineText_key hread).escaped

theorem ScalarForm.escaped {raw : List Char} (h : ScalarForm raw) : Escaped raw := by
  obtain ⟨_, hread⟩ := @ScalarForm.reads raw h (Place.start raw) []
    (by simp [Place.start]) ⟨rfl, by simp [Apart]⟩
  exact (lineText_scalarText hread).escaped

theorem inline_colon {raw gap behind : List Char} (hkey : KeyForm raw gap) (hraw : '\n' ∉ raw)
    (hbehind : Inline (':' :: behind)) : Inline (raw ++ (gap ++ ':' :: behind)) :=
  (hbehind.append (not_mem_blanks hkey.blanks)).append hraw

theorem Laid.inline {front last : Edge} {column : Nat} {es : List Element}
    (h : Laid front column es last) (hlines : InLine (Node.leavesList es)) (around : List Node) :
    ∀ p ∈ piecesList around es, Inline p.text := by
  have hcolon : Inline [':'] := ⟨by simp, by simp, by simp⟩
  induction h generalizing around with
  | nil => nofun
  | @scalar _ _ _ _ lead raw gap value es _ hkey hvalue _ ih =>
      obtain ⟨hraw, hscalar, hrest⟩ := hlines.entry
      have hbehind : ∃ blanks text, value = scalarNode blanks text ∧
          Inline (':' :: (blanks ++ text)) := by
        cases hvalue with
        | @inLine blanks text hblanks _ hform =>
            have htext : '\n' ∉ text := by
              simpa using hscalar ⟨.text, "", String.ofList text⟩
                (by simp [scalarNode, Node.leaves, Node.leavesList, Element.leaves])
            have hinline := hform.escaped.inline hform.ne_nil htext
            exact ⟨blanks, text, rfl, (hinline.append (not_mem_blanks hblanks)).append
              (show '\n' ∉ [':'] by simp)⟩
        | missing => exact ⟨[], [], rfl, hcolon⟩
      obtain ⟨blanks, text, rfl, hbehind⟩ := hbehind
      rw [piecesList, piecesElement, pieces_scalarEntry, List.singleton_append]
      exact List.forall_mem_cons.2 ⟨inline_colon hkey hraw hbehind, ih hrest around⟩
  | nested _ hkey _ _ _ _ ihchildren ih =>
      obtain ⟨hraw, hvalue, hrest⟩ := hlines.entry
      have hchildren := ihchildren (by simpa [mappingNode, Node.leaves] using hvalue)
      rw [piecesList, piecesElement, pieces_nestedEntry, List.cons_append]
      refine List.forall_mem_cons.2 ⟨inline_colon hkey hraw hcolon, fun p hp => ?_⟩
      exact (List.mem_append.1 hp).elim (hchildren _ p) (ih hrest around p)

/-! ### Trees -/

/-- A mapping has no trivia of its own. -/
def BlankMapping (n : Node) : Prop :=
  n.kind = .yaml .mapping → n.lead = ""

theorem print_pieces {n : Node} (h : Shaped n) (hblank : n.Everywhere BlankMapping)
    (hkind : n.kind ≠ .yaml .scalar) (around : List Node) :
    n.print.toList = written (pieces around n) := by
  induction h generalizing around with
  | scalar hscalar => exact absurd hscalar hkind
  | @entry n value key colon hentry hes _ hvalue h ih =>
      have hbelow := (everywhere_iff.1 hblank).2 value (by simp [hes])
      rw [pieces_entry hentry hes, print_yaml hentry, hes, written_cons, printList_cons,
        printList_cons, printList_cons]
      rcases hvalue with hscalar | hmapping
      · cases h with
        | scalar _ hes' =>
            rw [pieces_scalar hscalar hes']
            simp [ownText, hscalar, Node.printList, Element.print, written]
        | entry hentry' => simp [hscalar] at hentry'
        | mapping hmapping' => simp [hscalar] at hmapping'
      · have hprint := ih hbelow (by simp [hmapping]) (around ++ [n])
        simp [ownText, hmapping, Node.printList, Element.print, ← hprint]
  | @mapping n hmapping _ honly _ ih =>
      obtain ⟨hlead, hbelow⟩ := everywhere_iff.1 hblank
      rw [pieces_mapping hmapping, print_yaml hmapping, hlead hmapping, String.empty_append]
      generalize n.children = es at honly ih hbelow
      induction es with
      | nil => rfl
      | cons e es ih' =>
          obtain ⟨⟨e, rfl, hentry⟩, honly'⟩ := List.forall_mem_cons.1 honly
          rw [printList_cons, String.toList_append, Element.print, piecesList, piecesElement,
            written_append, ih e List.mem_cons_self (hbelow e List.mem_cons_self) (by simp [hentry]),
            ih' honly' (fun c hc => ih c (List.mem_cons_of_mem _ hc))
              fun c hc => hbelow c (List.mem_cons_of_mem _ hc)]

theorem blank_of_laid {front last : Edge} {column : Nat} {es : List Element}
    (h : Laid front column es last) : ∀ c, Element.node c ∈ es → c.Everywhere BlankMapping := by
  have hentry : ∀ {lead raw gap : List Char} {value : Node}, value.Everywhere BlankMapping →
      (entryNode lead raw gap value).Everywhere BlankMapping := by
    intro lead raw gap value hvalue
    refine everywhere_iff.2 ⟨by rintro ⟨⟩, fun c hc => ?_⟩
    obtain rfl : c = value := by simpa [entryNode] using hc
    exact hvalue
  induction h with
  | nil => simp
  | scalar _ _ hvalue _ ih =>
      obtain ⟨blanks, text, rfl, _⟩ := print_scalarLaid hvalue
      intro c hc
      rcases List.mem_cons.1 hc with hc | hc
      · cases hc
        exact hentry (everywhere_iff.2 ⟨by rintro ⟨⟩, by simp [scalarNode]⟩)
      · exact ih c hc
  | nested _ _ _ _ _ _ ihchildren ih =>
      intro c hc
      rcases List.mem_cons.1 hc with hc | hc
      · cases hc
        exact hentry (everywhere_iff.2 ⟨fun _ => rfl, ihchildren⟩)
      · exact ih c hc

theorem blank_of_documentLaid {d : Node} (h : DocumentLaid d) : d.Everywhere BlankMapping := by
  obtain @⟨marker, mapping, front, last, lead, hmarker, hmapping, hend⟩ := h
  refine everywhere_iff.2 ⟨nofun, fun c hc => ?_⟩
  simp only [documentNode, List.mem_append, List.mem_singleton, reduceCtorEq, or_false] at hc
  rcases hc with hc | hc
  · obtain ⟨t, ht, _⟩ := hmarker.tokens _ hc
    cases ht
  · cases hmapping with
    | none => cases hc
    | some _ hlaid =>
        obtain rfl := Element.node.inj (List.mem_singleton.1 hc)
        exact everywhere_iff.2 ⟨fun _ => rfl, blank_of_laid hlaid⟩

/-- A marker ends no line. -/
theorem returns_marker {marker : List Element} {front : Edge} (h : MarkerLaid marker front)
    (behind : List Char) : Returns ((Node.printList .sequence marker).toList ++ behind) ↔
      Returns (Node.printList .sequence marker).toList ∧ Returns behind := by
  cases h with
  | none => exact ⟨fun hall => ⟨rfl, hall⟩, fun hall => hall.2⟩
  | @marked lead _ =>
      have hsign : Inline ['-', '-', '-'] := ⟨by simp, by simp, by simp⟩
      have hprint : (Node.printList .sequence
          [.token ⟨.punct, String.ofList lead, "---"⟩]).toList = lead ++ (['-', '-', '-'] ++ []) := by
        simp [Node.printList, Element.print, Token.print, Layout.delimiters]
      rw [hprint, returns_between hsign, List.append_nil, List.append_assoc, returns_between hsign]
      simp [Returns, returnsBehind]

end Codemod.Yaml
