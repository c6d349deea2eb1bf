import Codemod.Proofs.Outcome
import Codemod.Tree.Printer
import Codemod.Yaml.Document
import Codemod.Yaml.Scan
import Mathlib.Tactic.SplitIfs

/-!
Documents print back exactly. Each scanning function takes a prefix of the characters ahead,
and what a construct prints is what its parser passed. Up to the closing quote of a quoted text no
character ends the line, but for a line break behind a backslash between double quotes, which the
scanner passes with the backslash.
-/

namespace Codemod.Yaml

open Codemod.Tree

/-! ### Quoted texts -/

/-- The characters may stand between two quotes of this kind, as far as the scanner is concerned. -/
inductive Enclosed (quote : Char) : List Char → Prop where
  | nil : Enclosed quote []
  | plain {c : Char} {cs : List Char} (hbreak : isBreak c = false) (hquote : c ≠ quote)
      (hescape : quote = '"' → c ≠ '\\') (h : Enclosed quote cs) : Enclosed quote (c :: cs)
  | escape {cs : List Char} (hdouble : quote = '"') (c : Char) (h : Enclosed quote cs) :
      Enclosed quote ('\\' :: c :: cs)
  | doubled {cs : List Char} (hsingle : quote = '\'') (h : Enclosed quote cs) :
      Enclosed quote (quote :: quote :: cs)

/-- Behind an opening quote stands a text and its closing quote, which is not the first of two single
quotes. -/
structure Closes (quote : Char) (inner left cs : List Char) : Prop where
  parts : cs = inner ++ quote :: left
  enclosed : Enclosed quote inner
  ends : quote = '\'' → left.head? ≠ some '\''

theorem closes_cons {quote c : Char} {inner left cs : List Char} (h : Closes quote inner left cs)
    (hinner : Enclosed quote inner → Enclosed quote (c :: inner)) :
    Closes quote (c :: inner) left (c :: cs) :=
  ⟨congrArg (List.cons c) h.parts, hinner h.enclosed, h.ends⟩

theorem closes_of_quotedRun {quote : Char} {cs taken left : List Char}
    (h : quotedRun quote cs = some (taken, left)) :
    ∃ inner, taken = inner ++ [quote] ∧ Closes quote inner left cs := by
  fun_induction quotedRun quote cs generalizing taken left with
  | case1 => cases h
  | case2 => cases h
  | case3 => cases h
  | case4 c _ hescape d rest ih =>
      obtain ⟨⟨taken', left'⟩, hrest, heq⟩ := Option.map_eq_some_iff.1 h
      cases heq
      obtain ⟨inner, rfl, hparts, hinner, hends⟩ := ih hrest
      simp only [Bool.and_eq_true, decide_eq_true_eq] at hescape
      obtain ⟨rfl, hdouble⟩ := hescape
      exact ⟨'\\' :: d :: inner, rfl, by rw [hparts]; rfl, .escape hdouble d hinner, hends⟩
  | case5 rest hsingle _ _ ih =>
      obtain ⟨⟨taken', left'⟩, hrest, heq⟩ := Option.map_eq_some_iff.1 h
      cases heq
      obtain ⟨inner, rfl, hparts, hinner, hends⟩ := ih hrest
      subst hsingle
      exact ⟨'\'' :: '\'' :: inner, rfl, by rw [hparts]; rfl, .doubled rfl hinner, hends⟩
  | case6 rest hdouble =>
      cases h
      exact ⟨[], rfl, rfl, .nil, fun hsingle => absurd hsingle hdouble⟩
  | case7 rest hother =>
      cases h
      refine ⟨[], rfl, rfl, .nil, fun _ hhead => ?_⟩
      cases rest with
      | nil => cases hhead
      | cons d rest => exact hother rest (by rw [Option.some.inj hhead])
  | case8 c rest hbreak hescape hclose ih =>
      obtain ⟨⟨taken', left'⟩, hrest, heq⟩ := Option.map_eq_some_iff.1 h
      cases heq
      obtain ⟨inner, rfl, hcloses⟩ := ih hrest
      exact ⟨c :: inner, rfl, closes_cons hcloses
        (.plain (by simpa using hbreak) hclose fun hdouble => by simpa [hdouble] using hescape)⟩

theorem quotedRun_of_closes {quote : Char} (hquote : quote = '"' ∨ quote = '\'')
    {inner left cs : List Char} (h : Closes quote inner left cs) :
    quotedRun quote cs = some (inner ++ [quote], left) := by
  obtain ⟨rfl, henclosed, hends⟩ := h
  have hbreak : isBreak quote = false := by rcases hquote with rfl | rfl <;> rfl
  have hescape : quote ≠ '\\' := by rcases hquote with rfl | rfl <;> decide
  induction henclosed with
  | nil =>
      rw [List.nil_append, List.nil_append]
      unfold quotedRun
      simp only [hbreak, hescape, decide_false, Bool.false_and, Bool.false_eq_true, if_false, if_true]
      split
      · rw [if_neg]
        rintro rfl
        simp at hends
      · rfl
  | @plain c cs hbreak' hquote' hescape' _ ih =>
      have hnone : (decide (c = '\\') && decide (quote = '"')) = false := by
        simpa using fun hc hdouble => hescape' hdouble hc
      rw [List.cons_append]
      unfold quotedRun
      rw [if_neg (by simp [hbreak']), if_neg (by simp [hnone]), if_neg hquote', ih]
      rfl
  | escape hdouble c _ ih =>
      subst hdouble
      rw [List.cons_append, List.cons_append]
      unfold quotedRun
      simp only [isBreak, ih]
      rfl
  | doubled hsingle _ ih =>
      subst hsingle
      rw [List.cons_append, List.cons_append]
      unfold quotedRun
      simp only [isBreak, ih]
      rfl

/-! ### Pieces of a line -/

theorem trivia_append (comment : Bool) (cs : List Char) :
    (trivia comment cs).1 ++ (trivia comment cs).2 = cs := by
  fun_induction trivia comment cs <;> simp_all

theorem spaces_append (cs : List Char) : (spaces cs).1 ++ (spaces cs).2 = cs :=
  List.takeWhile_append_dropWhile

theorem trimSpaces_starts (cs : List Char) : trimSpaces cs <+: cs := by
  have h := List.reverse_prefix.2 (List.dropWhile_suffix (l := cs.reverse) isSpace)
  rwa [List.reverse_reverse] at h

theorem plainRun_starts (afterSpace : Bool) (cs : List Char) : plainRun afterSpace cs <+: cs := by
  induction cs generalizing afterSpace with
  | nil => exact List.nil_prefix
  | cons c rest ih =>
      unfold plainRun
      split_ifs
      · exact List.nil_prefix
      · exact List.cons_prefix_cons.2 ⟨rfl, ih _⟩

theorem keyRun_starts (afterSpace : Bool) (cs : List Char) : keyRun afterSpace cs <+: cs := by
  induction cs generalizing afterSpace with
  | nil => exact List.nil_prefix
  | cons c rest ih =>
      unfold keyRun
      split_ifs
      · exact List.nil_prefix
      · exact List.cons_prefix_cons.2 ⟨rfl, ih _⟩

theorem append_drop_of_starts {front cs : List Char} (h : front <+: cs) :
    front ++ cs.drop front.length = cs := by
  obtain ⟨rest, rfl⟩ := h
  rw [List.drop_left]

theorem plainScalar_append (cs : List Char) : (plainScalar cs).1 ++ (plainScalar cs).2 = cs :=
  append_drop_of_starts ((trimSpaces_starts _).trans (plainRun_starts false cs))

theorem quotedRun_append {quote : Char} {cs taken left : List Char}
    (h : quotedRun quote cs = some (taken, left)) : taken ++ left = cs := by
  obtain ⟨inner, rfl, hcloses⟩ := closes_of_quotedRun h
  rw [hcloses.parts, List.append_assoc]
  rfl

/-! ### Places -/

/-- The characters lie between one place and a later one. -/
def Place.Passes (p : Place) (text : List Char) (q : Place) : Prop :=
  p.ahead = text ++ q.ahead

theorem Place.Passes.trans {p q r : Place} {xs ys : List Char} (h : p.Passes xs q)
    (h' : q.Passes ys r) : p.Passes (xs ++ ys) r := by
  rw [Place.Passes, List.append_assoc, ← h']
  exact h

theorem passes_move {p : Place} {taken left : List Char} (h : taken ++ left = p.ahead) :
    p.Passes taken (p.move taken left) :=
  h.symm

theorem passes_skip {p q : Place} {taken : List Char} (h : p.skip = .ok (taken, q)) :
    p.Passes taken q := by
  simp only [Place.skip] at h
  split_ifs at h
  cases h
  exact passes_move (trivia_append false p.ahead)

theorem passes_quotedText {p q : Place} {text : List Char} (h : quotedText p = .ok (text, q)) :
    p.Passes text q := by
  unfold quotedText at h
  split at h
  · cases h
  · rename_i quote rest hahead
    split at h
    · rename_i taken left hquoted
      cases h
      refine passes_move ?_
      rw [List.cons_append, quotedRun_append hquoted, hahead]
    · cases h

theorem passes_key {p q : Place} {text : List Char} (h : key p = .ok (text, q)) :
    p.Passes text q := by
  unfold key at h
  split_ifs at h
  · exact passes_quotedText h
  · simp only at h
    split_ifs at h
    cases h
    exact passes_move
      (append_drop_of_starts ((trimSpaces_starts _).trans (keyRun_starts false _)))

theorem passes_scalarText {p q : Place} {text : List Char} (h : scalarText p = .ok (text, q)) :
    p.Passes text q := by
  unfold scalarText at h
  split at h
  · cases h
  · split_ifs at h
    · obtain ⟨⟨raw, next⟩, hquoted, h⟩ := bind_eq_ok.1 h
      obtain ⟨_, _, h⟩ := bind_eq_ok.1 h
      cases h
      exact passes_quotedText hquoted
    · cases h
      exact passes_move (plainScalar_append p.ahead)

/-! ### Constructs -/

theorem print_scalarNode (lead raw : List Char) :
    (scalarNode lead raw).print.toList = lead ++ raw := by
  simp [scalarNode, Node.print, Node.printList, Element.print, Token.print, Layout.delimiters,
    Kind.layout]

theorem print_mappingNode (entries : List Element) :
    (mappingNode entries).print = Node.printList .sequence entries := by
  simp [mappingNode, Node.print, Kind.layout]

theorem print_entryNode (lead key gap : List Char) (value : Node) :
    (entryNode lead key gap value).print.toList =
      lead ++ (key ++ (gap ++ ([':'] ++ value.print.toList))) := by
  simp [entryNode, Node.print, Node.printList, Element.print, Token.print, Layout.delimiters,
    Kind.layout]

theorem printList_cons (e : Element) (es : List Element) :
    Node.printList .sequence (e :: es) = e.print ++ Node.printList .sequence es := by
  simp [Node.printList, Layout.delimiters]

theorem print_yaml {n : Node} {kind : Yaml.Kind} (h : n.kind = .yaml kind) :
    n.print = n.lead ++ Node.printList .sequence n.children := by
  obtain ⟨_, lead, children, markers, type?⟩ := n
  cases h
  rfl

theorem printList_append (es fs : List Element) :
    Node.printList .sequence (es ++ fs) =
      Node.printList .sequence es ++ Node.printList .sequence fs := by
  induction es with
  | nil => simp [Node.printList]
  | cons e es ih => simp [printList_cons, ih, String.append_assoc]

/-- The children print what lies between two places. -/
def Covers (p : Place) (children : List Element) (q : Place) : Prop :=
  p.Passes (Node.printList .sequence children).toList q

theorem covers_nil (p : Place) : Covers p [] p :=
  rfl

section
variable {entries : Nat → Place → Except ParseError (List Element × Place)}
  (hentries : ∀ {indent p es q}, entries indent p = .ok (es, q) → Covers p es q)
include hentries

theorem passes_value {indent : Nat} {p q : Place} {n : Node}
    (h : value entries indent p = .ok (n, q)) : p.Passes n.print.toList q := by
  unfold value at h
  simp only at h
  split_ifs at h
  · obtain ⟨⟨gap, next⟩, _, h⟩ := bind_eq_ok.1 h
    split_ifs at h
    · obtain ⟨⟨children, r⟩, hchildren, h⟩ := bind_eq_ok.1 h
      cases h
      rw [print_mappingNode]
      exact hentries hchildren
    · cases h
      rw [print_scalarNode]
      exact covers_nil p
  · obtain ⟨⟨raw, r⟩, hraw, h⟩ := bind_eq_ok.1 h
    cases h
    rw [print_scalarNode]
    exact (passes_move (spaces_append p.ahead)).trans (passes_scalarText hraw)

theorem passes_entry {indent : Nat} {p q : Place} {lead : List Char} {n : Node}
    (h : entry entries indent lead p = .ok (n, q)) :
    ∃ text, p.Passes text q ∧ n.print.toList = lead ++ text := by
  unfold entry at h
  split at h
  · cases h
  · obtain ⟨⟨key, r⟩, hkey, h⟩ := bind_eq_ok.1 h
    have hgap := passes_move (spaces_append r.ahead)
    simp only at h
    split at h
    · rename_i left hcolon
      obtain ⟨⟨node, s⟩, hvalue, h⟩ := bind_eq_ok.1 h
      cases h
      have hsign : (r.move (spaces r.ahead).1 (spaces r.ahead).2).Passes [':']
          ((r.move (spaces r.ahead).1 (spaces r.ahead).2).move [':'] left) :=
        passes_move hcolon.symm
      exact ⟨_, (passes_key hkey).trans (hgap.trans (hsign.trans (passes_value hentries hvalue))),
        print_entryNode lead key _ node⟩
    · cases h

end

theorem covers_entriesWithin {limit indent : Nat} {p q : Place} {es : List Element}
    (h : entriesWithin limit indent p = .ok (es, q)) : Covers p es q := by
  induction limit generalizing indent p es q with
  | zero =>
      cases h
      exact covers_nil p
  | succ limit ih =>
      obtain ⟨⟨lead, next⟩, hskip, h⟩ := bind_eq_ok.1 h
      simp only at h
      split_ifs at h
      · cases h
        exact covers_nil p
      · obtain ⟨⟨first, r⟩, hfirst, h⟩ := bind_eq_ok.1 h
        obtain ⟨⟨others, s⟩, hothers, h⟩ := bind_eq_ok.1 h
        cases h
        obtain ⟨text, htext, hprint⟩ := passes_entry ih hfirst
        rw [Covers, printList_cons, String.toList_append]
        show p.Passes (first.print.toList ++ _) _
        rw [hprint]
        exact ((passes_skip hskip).trans htext).trans (ih hothers)

theorem covers_marker {p q : Place} {es : List Element} (h : marker p = .ok (es, q)) :
    Covers p es q := by
  obtain ⟨⟨lead, next⟩, hskip, h⟩ := bind_eq_ok.1 h
  simp only at h
  split_ifs at h with hmarker
  · obtain ⟨⟨gap, after⟩, _, h⟩ := bind_eq_ok.1 h
    simp only at h
    split_ifs at h
    cases h
    simp only [startsMarker, Bool.and_eq_true] at hmarker
    have hdashes := append_drop_of_starts (List.isPrefixOf_iff_prefix.1 hmarker.2.1)
    have hprint : (Node.printList .sequence
        [.token ⟨.punct, String.ofList lead, "---"⟩]).toList = lead ++ ['-', '-', '-'] := by
      simp [Node.printList, Element.print, Token.print, Layout.delimiters]
    rw [Covers, hprint]
    exact (passes_skip hskip).trans (passes_move hdashes)
  · cases h
    exact covers_nil p

theorem covers_rootMapping {p q : Place} {es : List Element} (h : rootMapping p = .ok (es, q)) :
    Covers p es q := by
  obtain ⟨⟨lead, next⟩, _, h⟩ := bind_eq_ok.1 h
  simp only at h
  split_ifs at h
  · cases h
    exact covers_nil p
  · obtain ⟨⟨entries, r⟩, hentries, h⟩ := bind_eq_ok.1 h
    cases h
    rw [Covers, printList_cons]
    show p.Passes ((mappingNode entries).print ++ "").toList _
    rw [print_mappingNode, String.append_empty]
    exact covers_entriesWithin hentries

theorem print_documentEnd {p : Place} {last : Element} (h : documentEnd p = .ok last) :
    last.print.toList = p.ahead := by
  obtain ⟨⟨lead, next⟩, hskip, h⟩ := bind_eq_ok.1 h
  simp only at h
  split_ifs at h with hend
  cases h
  have hnil : next.ahead = [] := List.isEmpty_iff.1 hend
  rw [passes_skip hskip, hnil]
  simp [Element.print, Token.print]

theorem print_of_parseDocument {source : String} {document : Node}
    (h : parseDocument source = .ok document) : document.print = source := by
  obtain ⟨⟨marker, p⟩, hmarker, h⟩ := bind_eq_ok.1 h
  obtain ⟨⟨mapping, q⟩, hmapping, h⟩ := bind_eq_ok.1 h
  obtain ⟨last, hlast, h⟩ := bind_eq_ok.1 h
  cases h
  apply String.toList_injective
  have hcovers := (covers_marker hmarker).trans (covers_rootMapping hmapping)
  calc ("" ++ Node.printList .sequence (marker ++ mapping ++ [last])).toList
      = (Node.printList .sequence marker).toList ++ (Node.printList .sequence mapping).toList ++
          last.print.toList := by
        simp [printList_append, Node.printList, Layout.delimiters]
    _ = source.toList := by
        rw [print_documentEnd hlast]
        exact hcovers.symm

/-- A document prints back exactly the text that it was parsed from. -/
theorem parseDocument_round_trip {source : String} {document : Node}
    (h : parseDocument source = .ok document) : document.print = source :=
  print_of_parseDocument h

theorem parseDocument_round_trip_comments :
    ∃ document, parseDocument "---\n# c\r\na.b:  # d\n  'e' : \"f\"\n\ng:\n# end" = .ok document ∧
      document.print = "---\n# c\r\na.b:  # d\n  'e' : \"f\"\n\ng:\n# end" := by
  have hparses :
      (parseDocument "---\n# c\r\na.b:  # d\n  'e' : \"f\"\n\ng:\n# end").toOption.isSome =
        true := by
    decide +kernel
  cases hdocument : parseDocument "---\n# c\r\na.b:  # d\n  'e' : \"f\"\n\ng:\n# end" with
  | error e =>
      rw [hdocument] at hparses
      cases hparses
  | ok document => exact ⟨document, rfl, parseDocument_round_trip hdocument⟩

end Codemod.Yaml
