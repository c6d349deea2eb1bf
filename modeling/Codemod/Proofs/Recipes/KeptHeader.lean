import Codemod.Proofs.Recipes.Cutting
import Codemod.Proofs.Recipes.FoldedDeletion
import Codemod.Proofs.Recipes.KeptLines
import Codemod.Proofs.Yaml.ContentLines

/-!
The comments above the first entry of a document. The entry that comes first behind a deletion has
the lines in front of it that the first one had, and folding leaves it in its place; a document that
has lost all its entries keeps those behind its marker only.
-/

namespace Codemod.Recipes.Deletion

open Codemod.Tree Codemod.Yaml

/-! ### The lines in front of the first entry -/

theorem splitLast_append {separator : Char} {front behind : List Char} (h : separator ∉ behind) :
    Text.splitLast separator (front ++ separator :: behind) = some (front, behind) := by
  have hnone : Text.splitLast separator behind = none := by
    cases hsplit : Text.splitLast separator behind with
    | none => rfl
    | some parts =>
        rw [Text.splitLast_eq_some hsplit] at h
        simp at h
  induction front with
  | nil => simp [Text.splitLast, hnone]
  | cons c front ih => simp [Text.splitLast, ih]

theorem leadingLines_append_lastLine (lead : String) :
    leadingLines lead ++ Text.lastLine lead.toList = lead.toList := by
  by_cases hbreak : '\n' ∈ lead.toList
  · obtain ⟨front, hlead⟩ := exists_lastLine hbreak
    have hsplit := @splitLast_append _ front _ (not_mem_lastLine lead.toList)
    rw [← hlead] at hsplit
    rw [leadingLines, hsplit]
    simpa using hlead.symm
  · obtain ⟨front, behind, hlead, _⟩ | ⟨_, hnone⟩ := leadingLines_cases lead
    · exact absurd (by simp [hlead]) hbreak
    · rw [hnone, List.nil_append, lastLine_of_not_mem hbreak]

/-- The trivia begins with the leading lines of the other one. -/
def Leads (first lead : String) : Prop :=
  leadingLines first <+: lead.toList

theorem leads_self (lead : String) : Leads lead lead :=
  ⟨_, leadingLines_append_lastLine lead⟩

theorem leads_onto (first lead : String) :
    Leads first ((Carry.leading (leadingLines first)).onto lead) := by
  rw [Leads, Carry.onto, String.toList_ofList]
  exact List.prefix_append _ _

section
variable {target : Target} {around : List Node}

theorem cutEntries_leads {e : Node} {es : List Element} (honly : EntriesOnly (.node e :: es)) :
    let p := cutEntries target around {} (.node e :: es)
    p.kept = [] ∧ p.carry? = some (.leading (leadingLines e.lead)) ∨
      ∃ e' rest, p.kept = .node e' :: rest ∧ Leads e.lead e'.lead := by
  obtain hnone | ⟨e', rest, hkept, hlead | ⟨c, _, hlead⟩⟩ :=
    @cutEntries_head target around e es honly
  · exact .inl hnone
  · exact .inr ⟨e', rest, hkept, hlead ▸ leads_self e.lead⟩
  · exact .inr ⟨e', rest, hkept, hlead ▸ leads_onto e.lead c.lead⟩

end

/-! ### Documents with a first entry -/

/-- A document of this marker and this end without entries. -/
structure Bare (marker : List Element) (last : Token) (d : Node) : Prop where
  kind : d.kind = .yaml .document
  blank : d.lead = ""
  children : d.children = marker ++ [.token last]

/-- A document of this marker and this end with a first entry that has this trivia in front. -/
structure Headed (marker : List Element) (lead : String) (last : Token) (d : Node) : Prop where
  kind : d.kind = .yaml .document
  blank : d.lead = ""
  mapping : ∃ m e es, d.children = marker ++ [.node m] ++ [.token last] ∧
    m.kind = .yaml .mapping ∧ m.lead = "" ∧ m.children = .node e :: es ∧ e.lead = lead

theorem print_starts (n : Node) : ∃ text, n.print.toList = n.lead.toList ++ text := by
  obtain ⟨kind, lead, children, markers, type?⟩ := n
  exact ⟨_, String.toList_append⟩

section
variable {marker : List Element} {lead : String} {last : Token} {d : Node}
  (h : Headed marker lead last d)
include h

theorem Headed.print : ∃ behind, d.print.toList =
    (Node.printList .sequence marker).toList ++ (lead.toList ++ behind) := by
  obtain ⟨m, e, es, hes, hkind, hblank, hes', rfl⟩ := h.mapping
  obtain ⟨text, htext⟩ := print_starts e
  refine ⟨text ++ (Node.printList .sequence es ++ Node.printList .sequence [.token last]).toList, ?_⟩
  rw [print_yaml h.kind, h.blank, hes, List.append_assoc, printList_append, List.singleton_append,
    printList_cons, Element.print, print_yaml hkind, hblank, hes', printList_cons, Element.print]
  simp [htext]

variable (hmarker : ∀ e ∈ marker, ∃ t : Token, e = .token t ∧ t.kind = .punct)
include hmarker

theorem Headed.header : documentMapping? d ≠ none ∧
    throughMarker d = (Node.printList .sequence marker).toList ∧ firstLead d = lead.toList := by
  obtain ⟨m, e, es, hes, hkind, _, hes', rfl⟩ := h.mapping
  have hfound := documentMapping_eq hmarker hkind hes
  refine ⟨by simp [hfound], ?_, ?_⟩
  · rw [throughMarker, hes, List.append_assoc, List.takeWhile_append_of_pos]
    · simp [Element.token?]
    · intro e he
      obtain ⟨t, rfl, hpunct⟩ := hmarker e he
      simp [Element.token?, hpunct]
  · rw [firstLead, hfound, Option.bind_some, Node.childNodes, hes']
    rfl

theorem Headed.folded {d' : Node} (hfold : Folding.Coalesced (.node d) (.node d')) :
    Headed marker lead last d' := by
  obtain ⟨m, e, es, hes, hkind, hblank, hes', rfl⟩ := h.mapping
  obtain ⟨m', rfl, hm⟩ := hfold.documentMapping h.kind hes fun e he =>
    (hmarker e he).imp fun _ ht => ht.1
  obtain ⟨es', rfl, hchildren⟩ := hm.children (by simp [hkind])
  rw [hes'] at hchildren
  cases hchildren with
  | @cons _ _ _ es' hfirst _ =>
  obtain ⟨e', rfl, _, hlead, _⟩ := hfirst.node
  exact ⟨h.kind, h.blank, _, e', es', rfl, hkind, hblank, rfl, hlead⟩

theorem Headed.deleted (hd : DocumentShaped d) (heof : last.kind = .eof) (target : Target) :
    (∃ lead' last', Leads lead lead' ∧ Headed marker lead' last' (deleted target d)) ∨
      Bare [] { last with lead := onlyComments ((Carry.leading (leadingLines lead)).onto last.lead) }
        (deleted target d) := by
  obtain ⟨m, e, es, hes, hkind, hblank, hes', rfl⟩ := h.mapping
  have honly : EntriesOnly m.children :=
    (mapping_children hkind (hd.child (c := m) (by simp [hes])).2).2.1
  rw [hes'] at honly
  rw [deleted_eq hd hes hmarker heof, cut_mapping hkind, hes']
  obtain ⟨hkept, hcarry⟩ | ⟨e', rest, hkept, hlead⟩ :=
    @cutEntries_leads target [] e es honly
  · simp only [hkept, hcarry, withMapping]
    exact .inr ⟨h.kind, h.blank, rfl⟩
  · simp only [hkept, withMapping, Node.childNodes, List.filterMap_cons, Element.node?,
      List.isEmpty_cons, Bool.false_eq_true, if_false]
    exact .inl ⟨e'.lead, _, hlead, h.kind, h.blank, _, e', rest, rfl, hkind, hblank, rfl, rfl⟩

end

section
variable {marker : List Element} {last : Token} {d : Node} (h : Bare marker last d)
include h

theorem Bare.print : d.print.toList =
    (Node.printList .sequence marker).toList ++ (last.lead ++ last.text).toList := by
  rw [print_yaml h.kind, h.blank, h.children, printList_append, printList_cons]
  simp [Node.printList, Element.print, Token.print]

variable (hmarker : ∀ e ∈ marker, ∃ t : Token, e = .token t ∧ t.kind = .punct)
include hmarker

theorem Bare.tokens : ∀ e ∈ d.children, ∃ t, e = .token t := by
  rw [h.children]
  exact List.forall_mem_append.2 ⟨fun e he => (hmarker e he).imp fun _ ht => ht.1, by simp⟩

theorem Bare.header (heof : last.kind = .eof) : documentMapping? d = none ∧
    throughMarker d = (Node.printList .sequence marker).toList ∧ firstLead d = [] := by
  have hnone : documentMapping? d = none := by
    rw [documentMapping?, Node.firstChild?, Node.childNodes, h.children, List.filterMap_append,
      filterMap_marker hmarker]
    rfl
  refine ⟨hnone, ?_, by rw [firstLead, hnone]; rfl⟩
  rw [throughMarker, h.children, List.takeWhile_append_of_pos]
  · simp [Element.token?, heof]
  · intro e he
    obtain ⟨t, rfl, hpunct⟩ := hmarker e he
    simp [Element.token?, hpunct]

theorem Bare.folded {d' : Node} (hfold : Folding.Coalesced (.node d) (.node d')) : d' = d := by
  obtain ⟨es', rfl, hchildren⟩ := hfold.children (by simp [h.kind])
  rw [← List.append_nil d.children] at hchildren
  obtain ⟨rest, rfl, hrest⟩ := Folding.coalesced_behind (h.tokens hmarker) hchildren
  cases hrest
  rw [List.append_nil, eta_eq]

end

/-! ### Comments -/

theorem commentLines_withoutBlankLines (cs : List Char) :
    commentLines (withoutBlankLines cs) = commentLines cs := by
  have hskip : ∀ {blanks : List Char} (line rest : List Char), line = blanks ++ rest →
      (∀ c ∈ blanks, Text.isBlank c = true) → '\n' ∉ blanks →
      commentLines (skipBlankLines line rest) = commentLines line := by
    intro blanks line rest hline hblanks hbreak
    fun_induction skipBlankLines line rest generalizing blanks with
    | case1 => rfl
    | case2 line rest ih =>
        rw [@ih [] rfl (List.forall_mem_nil _) (by simp), hline, commentLines_break,
          commentLines_line hbreak (isCommentLine_blanks hblanks), List.nil_append]
    | case3 line c rest hc hblank ih =>
        refine @ih (blanks ++ [c]) (by simp [hline]) ?_ (by simp [hbreak, Ne.symm hc])
        intro d hd
        rcases List.mem_append.1 hd with hd | hd
        · exact hblanks d hd
        · rwa [List.mem_singleton.1 hd]
    | case4 => rfl
  exact hskip cs cs (List.nil_append cs).symm (List.forall_mem_nil _) (by simp)

theorem commentLines_onlyComments {lead : String} (h : IsTrivia lead.toList) :
    commentLines (onlyComments lead).toList = commentLines lead.toList := by
  rw [onlyComments]
  split_ifs with hcomment
  · rw [String.toList_ofList, commentLines_withoutBlankLines]
  · rw [holdsComment_iff h] at hcomment
    rw [commentLines_of_not_mem hcomment]
    rfl

theorem isCommentLine_lastLine {lead : List Char} (h : commentBehind false lead = some false) :
    isCommentLine (Text.lastLine lead) = false :=
  isCommentLine_blanks (blank_of_closed (closed_lastLine h) (not_mem_lastLine lead))

theorem isCommentLine_header {marker : List Element} {front : Edge} {column : Nat}
    {lead : List Char} (hmarker : MarkerLaid marker front) (hlead : LeadAt front column lead) :
    isCommentLine (Text.lastLine ((Node.printList .sequence marker).toList ++ lead)) = false := by
  have hline := isCommentLine_lastLine hlead.closed
  cases hmarker with
  | none => simpa [Node.printList] using hline
  | marked =>
      obtain ⟨above, habove⟩ := exists_lastLine (hlead.line (by simp))
      rw [habove] at hline ⊢
      rwa [← List.append_assoc, lastLine_break, ← lastLine_break above]

/-! ### Documents that are read -/

theorem headed_of_parseDocument {source : String} {d : Node} (h : parseDocument source = .ok d) :
    ∃ marker front last, MarkerLaid marker front ∧ last.kind = .eof ∧ last.text = "" ∧
      IsTrivia last.lead.toList ∧ (Bare marker last d ∨
        ∃ column lead, LeadAt front column lead.toList ∧ Headed marker lead last d) := by
  obtain ⟨marker, p, mapping, q, last, hmarker, hmapping, hlast, rfl⟩ := parseDocument_eq_ok.1 h
  obtain ⟨trailing, next, hskip, _, rfl⟩ := documentEnd_eq_ok.1 hlast
  obtain ⟨front, hlaid, hapart, hfresh, hbreak⟩ := markerLaid_of_marker hmarker
  refine ⟨marker, front, ⟨.eof, String.ofList trailing, ""⟩, hlaid, rfl, rfl,
    by simpa using isTrivia_skip hskip, ?_⟩
  obtain ⟨lead, next', hskip', ⟨_, rfl, rfl⟩ | ⟨hahead, entries, rfl, hentries⟩⟩ :=
    rootMapping_eq_ok.1 hmapping
  · exact .inl ⟨rfl, rfl, by simp⟩
  · obtain ⟨hlead, _⟩ := lead_of_skip front hskip' hahead
      ((hbreak hskip' hahead).imp_right fun h => ⟨h, hfresh h⟩) hapart
    refine .inr ⟨_, String.ofList lead, by simpa using hlead, rfl, rfl, ?_⟩
    cases hentries with
    | done hskip'' hstop =>
        rw [hskip'] at hskip''
        cases hskip''
        simp [hahead] at hstop
    | scalar hskip'' =>
        rw [hskip'] at hskip''
        cases hskip''
        exact ⟨_, _, _, rfl, rfl, rfl, rfl, rfl⟩
    | nested hskip'' =>
        rw [hskip'] at hskip''
        cases hskip''
        exact ⟨_, _, _, rfl, rfl, rfl, rfl, rfl⟩

theorem header_kept {marker : List Element} {front : Edge} {column : Nat} {lead lead' : String}
    {last : Token} {d : Node} (hmarker : MarkerLaid marker front)
    (hlead : LeadAt front column lead.toList) (hleads : Leads lead lead')
    (h : Headed marker lead' last d) :
    commentLines ((Node.printList .sequence marker).toList ++ lead.toList) <+:
      commentLines d.print.toList := by
  obtain ⟨behind, hprint⟩ := h.print
  obtain ⟨rest, hrest⟩ := hleads
  have hline := isCommentLine_header hmarker hlead
  rw [← leadingLines_append_lastLine lead, ← List.append_assoc] at hline ⊢
  rw [hprint, ← hrest, List.append_assoc (leadingLines lead), ← List.append_assoc]
  exact commentLines_prefix (not_mem_lastLine lead.toList) hline (rest ++ behind)

theorem header_emptied {lead trailing : String}
    (hlead : commentBehind false lead.toList = some false) (htrailing : IsTrivia trailing.toList) :
    commentLines lead.toList <+:
      commentLines (onlyComments ((Carry.leading (leadingLines lead)).onto trailing)).toList := by
  have hcarry := @isTrivia_leadingLines lead (by rw [IsTrivia, hlead]; rfl)
  have hline := isCommentLine_lastLine hlead
  obtain ⟨rest, hrest⟩ := leads_onto lead trailing
  rw [commentLines_onlyComments (isTrivia_onto hcarry htrailing), ← hrest]
  rw [← leadingLines_append_lastLine lead] at hline ⊢
  exact commentLines_prefix (not_mem_lastLine lead.toList) hline rest

/-- The comment lines above the first entry, also those above the marker, stay where they are as long
as an entry stays, whichever it is. A document that loses its last entry loses its marker, and the
comment lines above that with it; those behind the marker stay. -/
theorem deleteProperty_header {source key : String} {d : Node} {path : KeyPath}
    (hdocument : parseDocument source = .ok d) (hpath : KeyPath.parse key = .ok path)
    (expected : Option Recipe.OptionValue) (coalesce : Option Bool) :
    let result := (deleteProperty (some key) expected coalesce).apply ⟨d, []⟩
    let comments := commentLines result.root.print.toList
    header d <+: source.toList ∧
      (documentMapping? result.root ≠ none → commentLines (header d) <+: comments) ∧
      (documentMapping? result.root = none → commentLines (firstLead d) <+: comments) := by
  intro result comments
  have hd := shaped_of_parseDocument hdocument
  have hprint : d.print = source := print_of_parseDocument hdocument
  -- Folding comes behind the deletion, if it is asked for.
  have hfolds : result.root = deleted ⟨path, expected⟩ d ∨
      Folding.Coalesced (.node (deleted ⟨path, expected⟩ d)) (.node result.root) := by
    rw [show result.root = _ from Folding.deleteProperty_root hpath expected coalesce d]
    split_ifs
    · exact .inr (Folding.walk_coalesced (walk_deletes _ hd).shaped
        (walk_written _ hd (written_of_parseDocument hdocument)))
    · exact .inl rfl
  obtain ⟨marker, front, last, hmarker, heof, htext, htrivia, h | ⟨column, lead, hlead, h⟩⟩ :=
    headed_of_parseDocument hdocument
  · -- Without entries nothing changes.
    obtain ⟨hnone, hmarked, hfirst⟩ := h.header hmarker.tokens heof
    rw [deleted_bare _ h.kind (h.tokens hmarker.tokens)] at hfolds
    have hsame : result.root = d := hfolds.elim id (h.folded hmarker.tokens)
    rw [header, hmarked, hfirst, hsame, List.append_nil, ← hprint, h.print]
    exact ⟨List.prefix_append _ _, fun hsome => absurd hnone hsome, fun _ => List.nil_prefix⟩
  · obtain ⟨_, hmarked, hfirst⟩ := h.header hmarker.tokens
    obtain ⟨behind, hbegins⟩ := h.print
    rw [header, hmarked, hfirst, ← hprint]
    refine ⟨⟨behind, by rw [hbegins, List.append_assoc]⟩, ?_⟩
    obtain ⟨lead', last', hleads, h'⟩ | h' := h.deleted hmarker.tokens hd heof ⟨path, expected⟩
    · have hheaded : Headed marker lead' last' result.root :=
        hfolds.elim (fun hsame => hsame ▸ h') (h'.folded hmarker.tokens)
      exact ⟨fun _ => header_kept hmarker hlead hleads hheaded,
        fun hnone => absurd hnone (hheaded.header hmarker.tokens).1⟩
    · have hsame := hfolds.elim id (h'.folded nofun)
      rw [← hsame] at h'
      refine ⟨fun hsome => absurd (h'.header nofun heof).1 hsome, fun _ => ?_⟩
      have hends : result.root.print.toList =
          (onlyComments ((Carry.leading (leadingLines lead)).onto last.lead)).toList := by
        simp [h'.print, htext, Node.printList]
      rw [show comments = _ from congrArg commentLines hends]
      exact header_emptied hlead.closed htrivia

/-- The first entry goes with a mapping that is emptied; the header stays above the next one. -/
theorem deleteProperty_header_next :
    let source := "# h\n---\n# g\na:\n  b: 1\n# f\nc: 2\n"
    let recipe := deleteProperty (some "a.b") none none
    ∃ d, parseDocument source = .ok d ∧
      commentLines (header d) = ["# h".toList, "# g".toList] ∧
      commentLines (header d) <+: commentLines (recipe.apply ⟨d, []⟩).root.print.toList := by
  intro source recipe
  have hpath : KeyPath.parse "a.b" = .ok ⟨["a", "b"], by simp⟩ := by decide +kernel
  have hruns : (parseDocument source).toOption.map (fun d =>
      (commentLines (header d), (documentMapping? (recipe.apply ⟨d, []⟩).root).isSome)) =
        some (["# h".toList, "# g".toList], true) := by
    decide +kernel
  cases hdocument : parseDocument source with
  | error e =>
      rw [hdocument] at hruns
      cases hruns
  | ok d =>
      rw [hdocument] at hruns
      simp only [Except.toOption, Option.map_some, Option.some.injEq, Prod.mk.injEq] at hruns
      refine ⟨d, rfl, hruns.1, (deleteProperty_header hdocument hpath none none).2.1 fun hnone => ?_⟩
      rw [hnone] at hruns
      cases hruns.2

/-- The comments in front of a document marker go with the only entry. -/
example : (parseDocument "# h\n---\na: 1\n").toOption.map (fun d =>
    ((deleteProperty (some "a") none none).apply ⟨d, []⟩).root.print) = some "" := by
  decide +kernel

end Codemod.Recipes.Deletion
