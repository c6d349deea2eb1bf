import Codemod.Proofs.Tree.Everywhere
import Codemod.Tree.Printer

/-!
A tree as the tokens of its text, with the delimiters that the layout of a list puts between
its items. The trivia in front of a node goes to its first token. The main statement says that
printing a tree is writing these tokens one after another.
-/

namespace Codemod.Tree

/-- The delimiter as a token, behind the trivia that the marker keeps. -/
def Marker.token (marker : Marker) (delimiter : Delimiter) : Token :=
  ⟨.punct, marker.before, delimiter.text⟩

/-- The separator behind an item that another item follows, as a token. -/
def separatorToken (markers : Markers) (separator : Delimiter) : Token :=
  match markers.get? .separator <|> markers.get? separator.marker with
  | some marker => marker.token separator
  | none => ⟨.punct, "", separator.text⟩

/-- A delimiter behind the last item as a token, if the item is marked with it. -/
def markedTokens (markers : Markers) (delimiter : Delimiter) : List Token :=
  ((markers.get? delimiter.marker).map fun marker => marker.token delimiter).toList

/-- The delimiters behind the last item as tokens. -/
def tokensBehind (markers : Markers) (separator : Delimiter) (closer : Option Delimiter) :
    List Token :=
  markedTokens markers separator ++ (closer.map (markedTokens markers)).getD []

/-- The tokens that a layout puts behind a child, given the children after it. -/
def Layout.delimiterTokens (layout : Layout) (child : Element) (rest : List Element) :
    List Token :=
  match layout, child with
  | .separated separator closer, .node item =>
      if rest.any fun e => e.node?.isSome then [separatorToken item.markers separator]
      else tokensBehind item.markers separator closer
  | _, _ => []

/-- Trivia in front of the first of some tokens. -/
def leadTokens (lead : String) : List Token → List Token
  | [] => []
  | t :: ts => { t with lead := lead ++ t.lead } :: ts

mutual

/-- The tokens of a node in order, with the trivia of the text in front of each. -/
def Node.lexemes : Node → List Token
  | ⟨kind, lead, children, _, _⟩ => leadTokens lead (Node.lexemesIn kind.layout children)

/-- The tokens of a child. -/
def Element.lexemes : Element → List Token
  | .node n => n.lexemes
  | .token t => [t]

/-- The tokens of some children in a layout. -/
def Node.lexemesIn (layout : Layout) : List Element → List Token
  | [] => []
  | e :: es => e.lexemes ++ layout.delimiterTokens e es ++ Node.lexemesIn layout es

end

theorem lexemes_eq (n : Node) :
    n.lexemes = leadTokens n.lead (Node.lexemesIn n.kind.layout n.children) := by
  cases n
  rw [Node.lexemes]

/-- The text of some tokens. -/
def printTokens : List Token → String
  | [] => ""
  | t :: ts => t.print ++ printTokens ts

theorem printTokens_append (ts us : List Token) :
    printTokens (ts ++ us) = printTokens ts ++ printTokens us := by
  induction ts with
  | nil => simp [printTokens]
  | cons t ts ih => simp [printTokens, ih, String.append_assoc]

theorem printTokens_leadTokens (lead : String) {ts : List Token} (h : ts ≠ []) :
    printTokens (leadTokens lead ts) = lead ++ printTokens ts := by
  cases ts with
  | nil => exact absurd rfl h
  | cons t ts => simp [leadTokens, printTokens, Token.print, String.append_assoc]

theorem leadTokens_eq_nil {lead : String} {ts : List Token} :
    leadTokens lead ts = [] ↔ ts = [] := by
  cases ts <;> simp [leadTokens]

theorem leadTokens_empty (ts : List Token) : leadTokens "" ts = ts := by
  cases ts <;> simp [leadTokens]

theorem leadTokens_append (lead : String) {ts : List Token} (h : ts ≠ []) (us : List Token) :
    leadTokens lead (ts ++ us) = leadTokens lead ts ++ us := by
  cases ts with
  | nil => exact absurd rfl h
  | cons t ts => rfl

/-! ### Delimiters -/

theorem markedTokens_of_get {markers : Markers} {delimiter : Delimiter} {marker : Marker}
    (h : markers.get? delimiter.marker = some marker) :
    markedTokens markers delimiter = [marker.token delimiter] := by
  rw [markedTokens, h]
  rfl

theorem markedTokens_erase_self (markers : Markers) (delimiter : Delimiter) :
    markedTokens (markers.erase delimiter.marker) delimiter = [] := by
  rw [markedTokens, Markers.get?_erase_self]
  rfl

theorem markedTokens_erase_of_ne (markers : Markers) {delimiter : Delimiter} {kind : MarkerKind}
    (h : delimiter.marker ≠ kind) :
    markedTokens (markers.erase kind) delimiter = markedTokens markers delimiter := by
  rw [markedTokens, markedTokens, Markers.get?_erase_of_ne _ h]

theorem printTokens_separatorToken (markers : Markers) (separator : Delimiter) :
    printTokens [separatorToken markers separator] = printBetween markers separator := by
  unfold separatorToken printBetween
  cases markers.get? .separator <|> markers.get? separator.marker <;>
    simp [printTokens, Token.print, Marker.token, Marker.print]

theorem printTokens_markedTokens (markers : Markers) (delimiter : Delimiter) :
    printTokens (markedTokens markers delimiter) = printMarked markers delimiter := by
  unfold markedTokens printMarked
  cases markers.get? delimiter.marker <;>
    simp [printTokens, Token.print, Marker.token, Marker.print]

theorem printTokens_tokensBehind (markers : Markers) (separator : Delimiter)
    (closer : Option Delimiter) :
    printTokens (tokensBehind markers separator closer) =
      printBehind markers separator closer := by
  rw [tokensBehind, printBehind, printTokens_append, printTokens_markedTokens]
  cases closer with
  | none => rfl
  | some closer => simp [printTokens_markedTokens]

theorem printTokens_delimiterTokens (layout : Layout) (child : Element)
    (rest : List Element) :
    printTokens (layout.delimiterTokens child rest) = layout.delimiters child rest := by
  cases layout with
  | sequence => rfl
  | separated separator closer =>
      cases child with
      | token t => rfl
      | node item =>
          simp only [Layout.delimiterTokens, Layout.delimiters]
          split
          · exact printTokens_separatorToken item.markers separator
          · exact printTokens_tokensBehind item.markers separator closer

/-! ### Lists of children -/

section
variable (layout : Layout)

theorem lexemesIn_sequence_append (es fs : List Element) :
    Node.lexemesIn .sequence (es ++ fs) =
      Node.lexemesIn .sequence es ++ Node.lexemesIn .sequence fs := by
  induction es with
  | nil => rfl
  | cons e es ih => simp [Node.lexemesIn, Layout.delimiterTokens, ih]

theorem lexemesIn_token_cons (t : Token) (es : List Element) :
    Node.lexemesIn layout (.token t :: es) = t :: Node.lexemesIn layout es := by
  cases layout <;> simp [Node.lexemesIn, Element.lexemes, Layout.delimiterTokens]

theorem lexemesIn_tokens_append (ts : List Token) (es : List Element) :
    Node.lexemesIn layout (ts.map .token ++ es) = ts ++ Node.lexemesIn layout es := by
  induction ts with
  | nil => rfl
  | cons t ts ih =>
      rw [List.map_cons, List.cons_append, lexemesIn_token_cons, ih]
      rfl

theorem lexemesIn_append_tokens (es : List Element) (ts : List Token) :
    Node.lexemesIn layout (es ++ ts.map .token) = Node.lexemesIn layout es ++ ts := by
  induction es with
  | nil =>
      have h := lexemesIn_tokens_append layout ts []
      rw [List.append_nil] at h
      rw [List.nil_append, h]
      exact List.append_nil ts
  | cons e es ih =>
      have hany : ((es ++ ts.map Element.token).any fun e => e.node?.isSome) =
          es.any fun e => e.node?.isSome := by
        simp [List.any_map, Function.comp_def, Element.node?]
      have hdelimiters : layout.delimiterTokens e (es ++ ts.map .token) =
          layout.delimiterTokens e es := by
        unfold Layout.delimiterTokens
        simp only [hany]
      rw [List.cons_append]
      simp only [Node.lexemesIn, ih, hdelimiters, List.append_assoc]

end

theorem mem_leadTokens (lead : String) {t : Token} {ts : List Token} (h : t ∈ ts) :
    ∃ t' ∈ leadTokens lead ts, t'.kind = t.kind ∧ t'.text = t.text := by
  cases ts with
  | nil => cases h
  | cons first rest =>
      rcases List.mem_cons.1 h with rfl | h
      · exact ⟨_, List.mem_cons_self, rfl, rfl⟩
      · exact ⟨t, List.mem_cons_of_mem _ h, rfl, rfl⟩

theorem mem_lexemesIn (layout : Layout) {e : Element} {es : List Element} (he : e ∈ es) {t : Token}
    (ht : t ∈ e.lexemes) : t ∈ Node.lexemesIn layout es := by
  induction es with
  | nil => cases he
  | cons first rest ih =>
      simp only [Node.lexemesIn, List.mem_append]
      rcases List.mem_cons.1 he with rfl | he
      · exact .inl (.inl ht)
      · exact .inr (ih he)

/-- Each token below a node is written with its kind and its text. -/
theorem exists_lexeme {n : Node} {t : Token} (h : t ∈ n.leaves) :
    ∃ t' ∈ n.lexemes, t'.kind = t.kind ∧ t'.text = t.text := by
  induction n using Node.induction_on generalizing t with
  | step n ih =>
      obtain ⟨kind, lead, children, markers, type?⟩ := n
      simp only at ih
      rw [Node.leaves, mem_leavesList] at h
      rw [Node.lexemes]
      rcases h with h | ⟨c, hc, h⟩
      · exact mem_leadTokens lead (mem_lexemesIn kind.layout h (List.mem_singleton_self t))
      · obtain ⟨t₁, ht₁, hkind, htext⟩ := ih c hc h
        obtain ⟨t₂, ht₂, hkind', htext'⟩ := mem_leadTokens lead (mem_lexemesIn kind.layout hc ht₁)
        exact ⟨t₂, ht₂, hkind'.trans hkind, htext'.trans htext⟩

/-! ### Printing -/

/-- The node keeps trivia only in front of a token. -/
def Node.Anchored (n : Node) : Prop :=
  Node.lexemesIn n.kind.layout n.children = [] → n.lead = ""

theorem printTokens_lexemesIn (layout : Layout) {es : List Element}
    (h : ∀ c, Element.node c ∈ es → printTokens c.lexemes = c.print) :
    printTokens (Node.lexemesIn layout es) = Node.printList layout es := by
  induction es with
  | nil => rfl
  | cons e es ih =>
      have hfirst : printTokens e.lexemes = e.print := by
        cases e with
        | node n => exact h n (by simp)
        | token t => simp [Element.lexemes, Element.print, printTokens]
      simp only [Node.lexemesIn, Node.printList, printTokens_append,
        printTokens_delimiterTokens]
      rw [hfirst, ih fun c hc => h c (List.mem_cons_of_mem _ hc)]

/-- Printing a tree writes its tokens one after another. -/
theorem printTokens_lexemes {n : Node} (h : n.Everywhere Node.Anchored) :
    printTokens n.lexemes = n.print := by
  induction n using Node.induction_on with
  | step n ih =>
      obtain ⟨hn, hchildren⟩ := everywhere_iff.1 h
      have hlist := printTokens_lexemesIn n.kind.layout
        fun c hc => ih c hc (hchildren c hc)
      obtain ⟨kind, lead, children, markers, type?⟩ := n
      simp only [Node.Anchored] at hn hlist
      simp only [Node.lexemes, Node.print]
      by_cases hnil : Node.lexemesIn kind.layout children = []
      · rw [← hlist, hnil, hn hnil]
        rfl
      · rw [printTokens_leadTokens lead hnil, hlist]

end Codemod.Tree
