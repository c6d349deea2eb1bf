import Codemod.Proofs.Java.RelabelledGrammar
import Codemod.Proofs.Java.Scanning
import Mathlib.Data.List.Forall2

/-!
Other blanks between the tokens of a text. The main statement says that a text whose trivia is
replaced by blanks, with nothing put where there was none, has the same tokens and the same tree but
for that trivia: no boundary of a token, no look at what is ahead and no speculation asks for more
of it than whether it is there.
-/

namespace Codemod.Tree

/-- Delimiters without the spacing in front of them. -/
def Markers.unspaced (ms : Markers) : Markers :=
  ms.map fun m => { m with before := "" }

mutual

/-- The tree without any trivia: its kinds, its children, the kinds and texts of its tokens, and the
kinds of its delimiters. -/
def Node.unspaced : Node → Node
  | ⟨kind, _, children, markers, type?⟩ =>
      ⟨kind, "", Node.unspacedList children, markers.unspaced, type?⟩

/-- The child without any trivia. -/
def Element.unspaced : Element → Element
  | .node n => .node n.unspaced
  | .token t => .token { t with lead := "" }

/-- Children without any trivia. -/
def Node.unspacedList : List Element → List Element
  | [] => []
  | e :: es => e.unspaced :: Node.unspacedList es

end

theorem Node.unspacedList_eq_map (es : List Element) :
    Node.unspacedList es = es.map Element.unspaced := by
  induction es with
  | nil => rfl
  | cons e es ih => rw [Node.unspacedList, ih, List.map_cons]

end Codemod.Tree

namespace Codemod.Java

open Codemod.Tree

/-- The token with blanks in place of the trivia in front of it, and with nothing in place of
nothing. -/
structure Respaced (t t' : Token) : Prop where
  kind : t'.kind = t.kind
  text : t'.text = t.text
  isBlank : ∀ c ∈ t'.lead.toList, Text.isBlank c = true
  eq_empty : t'.lead = "" ↔ t.lead = ""

namespace Scan

/-- The second text starts with a blank, or like the first one, and the scan cannot tell them apart
in their front. -/
structure Mimics (cs ds : List Char) : Prop where
  alike : Alike cs ds
  head : ds.head? = cs.head? ∨ ∀ c ∈ ds.head?, Text.isBlank c = true

theorem Splits.mimics {t : Token} {rest rest' : List Char} (h : Splits t rest)
    (hrest : Mimics rest rest') : Splits t rest' := by
  refine h.alike hrest.alike (hrest.head.imp_right fun hblank c hc => ?_)
  have hc := hblank c hc
  refine ⟨fun _ => ⟨?_, ?_⟩, .inr (continuesWord_of_isBlank hc)⟩
  all_goals
    rintro rfl
    revert hc
    decide

theorem guarded_of_head {cs : List Char} (h : ∀ c ∈ cs.head?, Text.isBlank c = true ∨ c = '/') :
    Guarded cs := by
  intro c hc
  rcases h c hc with hblank | rfl
  · exact inert_of_isBlank hblank
  · exact inert_slash

theorem mimics_respaced {t t' : Token} {cs ds left : List Char} (h : Respaced t t')
    (hlead : Skips t.lead.toList left) (halike : Alike cs ds) (hhead : ds.head? = cs.head?) :
    Mimics (t.lead.toList ++ cs) (t'.lead.toList ++ ds) := by
  have hempty := h.eq_empty
  have hblank := h.isBlank
  rw [← String.toList_eq_nil_iff, ← String.toList_eq_nil_iff] at hempty
  revert hlead hempty hblank
  generalize t.lead.toList = lead
  generalize t'.lead.toList = lead'
  intro hlead hempty hblank
  cases lead with
  | nil =>
      obtain rfl : lead' = [] := by simpa using hempty
      exact ⟨halike, .inl hhead⟩
  | cons c lead =>
      cases lead' with
      | nil => simp at hempty
      | cons d lead' =>
          have hd := hblank d List.mem_cons_self
          refine ⟨.guarded (guarded_of_head ?_) (guarded_of_head ?_), .inr ?_⟩
          · rintro _ ⟨⟩
            exact hlead.head
          · rintro _ ⟨⟩
            exact .inl hd
          · rintro _ ⟨⟩
            exact hd

theorem print_cons (t : Token) (ts : List Token) :
    (printTokens (t :: ts)).toList =
      t.lead.toList ++ (t.text.toList ++ (printTokens ts).toList) := by
  simp [printTokens, Token.print]

theorem scans_respaced {ts ts' : List Token} (h : Scans ts)
    (hspaced : List.Forall₂ Respaced ts ts') :
    Scans ts' ∧ Mimics (printTokens ts).toList (printTokens ts').toList := by
  induction h generalizing ts' with
  | @last lead hlead =>
      cases hspaced with
      | @cons _ t' _ _ ht hnil =>
          cases hnil
          obtain ⟨kind, lead', text⟩ := t'
          obtain rfl : kind = .eof := ht.kind
          obtain rfl : text = "" := ht.text
          refine ⟨.last (skips_blanks ht.isBlank fun _ => rfl), ?_⟩
          rw [print_cons, print_cons]
          exact mimics_respaced ht hlead (.refl _) rfl
  | @cons t ts hsplits _ ih =>
      cases hspaced with
      | @cons _ t' _ ts' ht hspaced =>
          obtain ⟨hscans, hmimics⟩ := ih hspaced
          obtain ⟨hskips, hreads⟩ := hsplits.mimics hmimics
          obtain ⟨c, cs, htext, -⟩ := hsplits.reads
          constructor
          · refine .cons ⟨?_, ?_⟩ hscans
            · rw [ht.text]
              exact skips_blanks ht.isBlank hskips.stops
            · rw [ht.kind, ht.text]
              exact hreads
          · rw [print_cons, print_cons, ht.text]
            refine mimics_respaced ht hskips (hmimics.alike.append _) ?_
            rw [htext]
            rfl

end Scan

/-- One blank in place of any trivia. -/
def Relabelling.oneBlank : Relabelling where
  lead s := if s.isEmpty then "" else " "
  word := id
  isEmpty_lead s := by
    cases h : s.isEmpty <;> rfl

theorem Relabelling.unspaced_oneBlank (n : Node) : (oneBlank.node n).unspaced = n.unspaced := by
  induction n using Node.induction_on with
  | step n ih =>
      obtain ⟨kind, lead, children, markers, type?⟩ := n
      have hchildren : ∀ e ∈ children, (oneBlank.element e).unspaced = e.unspaced := by
        intro e he
        cases e with
        | node c => exact congrArg Element.node (ih c he)
        | token t => simp [element, Element.unspaced, token, oneBlank]
      have hmarkers : (oneBlank.markers markers).unspaced = markers.unspaced := by
        simp [Relabelling.markers, Markers.unspaced]
      rw [node, Node.unspaced, Node.unspaced, hmarkers, Node.unspacedList_eq_map,
        Node.unspacedList_eq_map, elements_eq_map, List.map_map]
      exact congrArg (Node.mk kind "" · markers.unspaced type?) (List.map_congr_left hchildren)

theorem Respaced.oneBlank {t t' : Token} (h : Respaced t t') :
    Relabelling.oneBlank.token t' = Relabelling.oneBlank.token t := by
  simp [Relabelling.token, Relabelling.oneBlank, h.kind, h.text, h.eq_empty]

theorem map_oneBlank {ts ts' : List Token} (h : List.Forall₂ Respaced ts ts') :
    ts'.map Relabelling.oneBlank.token = ts.map Relabelling.oneBlank.token := by
  induction h with
  | nil => rfl
  | cons ht _ ih => rw [List.map_cons, List.map_cons, ht.oneBlank, ih]

theorem Relabelling.oneBlank_tokens {tokens tokens' : Tokens}
    (h : List.Forall₂ Respaced (tokens.toList.map Lexed.token)
      (tokens'.toList.map Lexed.token)) :
    oneBlank.tokens tokens' = oneBlank.tokens tokens := by
  have hmap := congrArg (List.map fun t => Lexed.mk t 0) (map_oneBlank h)
  rw [List.map_map, List.map_map, List.map_map, List.map_map, Tokens.toList, Tokens.toList,
    List.map_append, List.map_append] at hmap
  obtain ⟨hahead, hlast⟩ := List.append_inj' hmap rfl
  exact congrArg₂ Tokens.mk hahead (List.cons.inj hlast).1

/-- A text whose trivia is replaced by blanks parses to the same tree but for its trivia. -/
theorem parseUnit_respaced {source : String} {tokens : Tokens} {root : Node} {ts : List Token}
    (htokens : tokenize source = .ok tokens) (hroot : parseUnit source = .ok root)
    (hspaced : List.Forall₂ Respaced (tokens.toList.map Lexed.token) ts) :
    ∃ tokens' root', tokenize (printTokens ts) = .ok tokens' ∧
      tokens'.toList.map Lexed.token = ts ∧ parseUnit (printTokens ts) = .ok root' ∧
        root'.unspaced = root.unspaced := by
  have hscans := Scan.scans_tokensWithin htokens
  obtain ⟨tokens', htokens', rfl⟩ := tokenize_printTokens.2 (Scan.scans_respaced hscans hspaced).1
  have hroot' : parseTokens tokens = .ok root := by
    rwa [parseUnit, htokens] at hroot
  have hlabelled := (parseTokens_relabelled .oneBlank tokens).1 root hroot'
  rw [← Relabelling.oneBlank_tokens hspaced] at hlabelled
  obtain ⟨hok, herror⟩ := parseTokens_relabelled .oneBlank tokens'
  cases hparsed : parseTokens tokens' with
  | error e =>
      obtain ⟨e', he'⟩ := herror e hparsed
      cases he'.symm.trans hlabelled
  | ok root' =>
      have hsame := (hok root' hparsed).symm.trans hlabelled
      refine ⟨tokens', root', htokens', rfl, ?_, ?_⟩
      · rw [parseUnit, htokens']
        exact hparsed
      · rw [← Relabelling.unspaced_oneBlank root', Except.ok.inj hsame,
          Relabelling.unspaced_oneBlank]

theorem respaced_map (blanks : String) (hne : blanks ≠ "")
    (hblank : ∀ c ∈ blanks.toList, Text.isBlank c = true) (ts : List Token) :
    List.Forall₂ Respaced ts
      (ts.map fun t => { t with lead := if t.lead = "" then "" else blanks }) := by
  rw [List.forall₂_map_right_iff, List.forall₂_same]
  intro t _
  by_cases hlead : t.lead = ""
  · refine ⟨rfl, rfl, ?_, ?_⟩ <;> simp [hlead]
  · exact ⟨rfl, rfl, by simpa [hlead] using hblank, by simp [hlead, hne]⟩

theorem parseUnit_respaced_comments :
    ∃ root root',
      parseUnit "class A \x7b /* b */ int a=(int)/**/x>>2; \x7d " = .ok root ∧
        parseUnit "class  A  \x7b  int  a=(int)  x>>2;  \x7d  " = .ok root' ∧
          root'.unspaced = root.unspaced := by
  have hparses :
      (parseUnit "class A \x7b /* b */ int a=(int)/**/x>>2; \x7d ").toOption.isSome = true := by
    decide +kernel
  cases hroot : parseUnit "class A \x7b /* b */ int a=(int)/**/x>>2; \x7d " with
  | error e =>
      rw [hroot] at hparses
      cases hparses
  | ok root =>
      obtain ⟨tokens, htokens, -⟩ := bind_eq_ok.1 hroot
      obtain ⟨_, root', _, _, hroot', hsame⟩ := parseUnit_respaced htokens hroot
        (respaced_map "  " (by decide) (List.all_eq_true.1 (by decide)) _)
      refine ⟨root, root', rfl, ?_, hsame⟩
      have hprint : (tokenize "class A \x7b /* b */ int a=(int)/**/x>>2; \x7d ").toOption.map
          (fun tokens => printTokens ((tokens.toList.map Lexed.token).map fun t =>
            { t with lead := if t.lead = "" then "" else "  " })) =
          some "class  A  \x7b  int  a=(int)  x>>2;  \x7d  " := by
        decide +kernel
      rw [htokens] at hprint
      rw [← Option.some.inj hprint]
      exact hroot'

end Codemod.Java
