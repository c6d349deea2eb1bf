import Codemod.Proofs.Tree.Lexemes

/-!
The shape of the trees that are grown from Java source: where trivia may stand, which markers
the items of a list carry, and what the children are of those kinds of node that recipes act on.
-/

namespace Codemod.Java

open Codemod.Tree

/-- The markers that the last item of a list can carry: a trailing separator, the closer of the
list, both or none. -/
inductive EndMarkers (separator : Delimiter) : Option Delimiter → Markers → Prop where
  | bare {closer : Option Delimiter} : EndMarkers separator closer []
  | trailing {closer : Option Delimiter} (before : String) :
      EndMarkers separator closer [⟨separator.marker, before⟩]
  | closed {delimiter : Delimiter} (before : String) :
      EndMarkers separator (some delimiter) [⟨delimiter.marker, before⟩]
  | both {delimiter : Delimiter} (trailing before : String) :
      EndMarkers separator (some delimiter)
        [⟨separator.marker, trailing⟩, ⟨delimiter.marker, before⟩]

/-- Each item but the last keeps the spacing in front of the separator behind it. -/
inductive Separated (separator : Delimiter) (closer : Option Delimiter) : List Node → Prop where
  | nil : Separated separator closer []
  | last {item : Node} (h : EndMarkers separator closer item.markers) :
      Separated separator closer [item]
  | cons {item next : Node} {rest : List Node} (before : String)
      (h : item.markers = [⟨.separator, before⟩])
      (hrest : Separated separator closer (next :: rest)) :
      Separated separator closer (item :: next :: rest)

/-- Only the items of a list carry markers, and they stand next to each other. -/
def LayoutShape : Layout → List Element → Prop
  | .sequence, children => ∀ c, Element.node c ∈ children → c.markers = []
  | .separated separator closer, children =>
      ∃ (before after : List Token) (items : List Node),
        children = before.map .token ++ items.map .node ++ after.map .token ∧
          Separated separator closer items

/-- Two signs around other children, without trivia in front of the first. -/
def Enclosed (opening closing : String) (children inner : List Element) : Prop :=
  ∃ lead, children =
    .token ⟨.punct, "", opening⟩ :: (inner ++ [.token ⟨.punct, lead, closing⟩])

/-- An identifier, in which no dot stands. -/
def IsPart (token : Token) : Prop :=
  token.kind = .identifier ∧ '.' ∉ token.text.toList

/-- Identifiers with dots between them. -/
inductive Dotted : List Token → Prop where
  | part {t : Token} (h : IsPart t) : Dotted [t]
  | snoc {ts : List Token} {dot t : Token} (hts : Dotted ts) (hdot : dot.text = ".")
      (h : IsPart t) : Dotted (ts ++ [dot, t])

/-- Each token among the children is a name or a semicolon. -/
def Naming (children : List Element) : Prop :=
  ∀ t, .token t ∈ children → t.kind = .identifier ∨ t.text = ";"

/-- The children of the kinds of node whose parts are looked at one by one. -/
def KindShape : Kind → List Element → Prop
  | .empty, children => children = [.token ⟨.punct, "", ";"⟩]
  | .block, children | .classBody, children =>
      ∃ items : List Node, Enclosed "\x7b" "\x7d" children (items.map .node)
  | .enumBody, children =>
      ∃ (constants : Node) (items : List Node), constants.kind = .java .enumConstants ∧
        (∀ item ∈ items, item.kind ≠ .java .enumConstants) ∧
        Enclosed "\x7b" "\x7d" children ((constants :: items).map .node)
  | .enumConstants, children =>
      children = [.token ⟨.punct, "", ";"⟩] ∨
        ∃ items : List Node, (∀ item ∈ items, item.kind = .java .enumConstant) ∧
          children = items.map .node
  | .extendsClause, children | .implementsClause, children | .throwsClause, children =>
      ∃ (keyword : Token) (items : List Node), (∀ item ∈ items, item.kind = .java .typeTree) ∧
        children = .token keyword :: items.map .node
  | .arguments, children =>
      ∃ items : List Node, Enclosed "(" ")" children (items.map .node)
  | .parameters, children =>
      ∃ items : List Node, (∀ item ∈ items, item.kind = .java .parameter) ∧
        Enclosed "(" ")" children (items.map .node)
  | .declarators, children =>
      ∃ items : List Node, (∀ item ∈ items, item.kind = .java .namedVariable) ∧
        children = items.map .node
  | .tryResources, children =>
      ∃ items : List Node, (∀ item ∈ items, item.kind = .java .resource) ∧
        Enclosed "(" ")" children (items.map .node)
  | .importClause, children =>
      ∃ (words : List Token) (name : Node) (semicolon : Token),
        name.kind = .java .qualifiedName ∧
          children = words.map .token ++ [.node name, .token semicolon]
  | .classDeclaration, children => ∃ name : Token, name.kind = .identifier ∧ .token name ∈ children
  | .methodDeclaration, children => Naming children
  | .qualifiedName, children =>
      ∃ ts : List Token, Dotted ts ∧
        (children = ts.map .token ∨
          ∃ dot star : Token, dot.text = "." ∧ star.text = "*" ∧
            children = (ts ++ [dot, star]).map .token)
  | _, _ => True

/-- The last token of the node, which has one, passes the test. -/
def EndsWith (p : Token → Bool) (n : Node) : Prop :=
  ∃ (front : List Token) (t : Token), n.lexemes = front ++ [t] ∧ p t = true

/-- The token can end a statement or a member. -/
def endsClause (t : Token) : Bool :=
  t.text == ";" || t.text == "\x7d"

/-- The token is no slash, so that it cannot open a comment. -/
def isNoSlash (t : Token) : Bool :=
  !(t.kind == .punct && t.text == "/")

/-- How the children of those kinds of node end from which semicolons are taken away. -/
def Closing : Kind → List Element → Prop
  | .block, children | .classBody, children =>
      ∀ c, .node c ∈ children → EndsWith endsClause c
  | .enumBody, children =>
      (∀ c, .node c ∈ children → c.kind ≠ .java .enumConstants → EndsWith endsClause c) ∧
        ∀ opening constants member rest,
          children = opening :: .node constants :: .node member :: rest →
            member.kind = .java .empty → EndsWith endsClause constants
  | .enumConstants, children | .tryResources, children =>
      ∀ c, .node c ∈ children → EndsWith isNoSlash c
  | _, _ => True

/-- The shape of a node inside a unit. -/
structure Shaped (n : Node) : Prop where
  untyped : n.type? = none
  anchored : n.Anchored
  /-- The trivia in front of a node stands at the outermost node that starts there. -/
  first : ∀ e ∈ n.children.head?, e.lead = ""
  layout : LayoutShape n.kind.layout n.children
  kind : ∃ k : Kind, n.kind = .java k ∧ k ≠ .compilationUnit ∧ KindShape k n.children
  closing : ∀ k : Kind, n.kind = .java k → Closing k n.children

section
variable {p : Token → Bool} {n : Node} (h : EndsWith p n)
include h

theorem EndsWith.with_markers (markers : Markers) : EndsWith p { n with markers } := by
  cases n
  exact h

/-- What stands in front of the first token is not in the way of a test of the last. -/
theorem EndsWith.with_lead (hp : ∀ (t : Token) (lead : String), p { t with lead } = p t)
    (lead : String) : EndsWith p { n with lead } := by
  obtain ⟨kind, before, children, markers, type?⟩ := n
  obtain ⟨front, t, hlexemes, ht⟩ := h
  rw [Node.lexemes] at hlexemes
  simp only [EndsWith, Node.lexemes]
  cases htokens : Node.lexemesIn kind.layout children with
  | nil =>
      rw [htokens] at hlexemes
      cases front <;> cases hlexemes
  | cons first rest =>
      rw [htokens, leadTokens] at hlexemes
      obtain rfl | ⟨rest, last, rfl⟩ := List.eq_nil_or_concat rest
      · refine ⟨[], _, rfl, ?_⟩
        rw [hp]
        cases front with
        | nil =>
            cases hlexemes
            rwa [hp] at ht
        | cons x front => cases front <;> cases hlexemes
      · rw [List.concat_eq_append, ← List.cons_append] at hlexemes ⊢
        obtain ⟨-, hlast⟩ := List.append_inj' hlexemes rfl
        cases hlast
        exact ⟨{ first with lead := lead ++ first.lead } :: rest, t, rfl, ht⟩

end

theorem endsClause_lead (t : Token) (lead : String) : endsClause { t with lead } = endsClause t :=
  rfl

theorem isNoSlash_lead (t : Token) (lead : String) : isNoSlash { t with lead } = isNoSlash t :=
  rfl

/-! ### Nodes that take over the trivia of their first child -/

theorem lexemes_withLead_empty (e : Element) :
    leadTokens e.lead (e.withLead "").lexemes = e.lexemes := by
  cases e with
  | token t => simp [Element.lead, Element.withLead, Element.lexemes, leadTokens]
  | node n =>
      obtain ⟨kind, lead, children, markers, type?⟩ := n
      simp [Element.lead, Element.withLead, Element.lexemes, Node.lexemes, leadTokens_empty]

theorem lexemes_withLead_eq_nil {e : Element} {lead : String} :
    (e.withLead lead).lexemes = [] ↔ e.lexemes = [] := by
  cases e with
  | token t => simp [Element.withLead, Element.lexemes]
  | node n =>
      obtain ⟨kind, lead', children, markers, type?⟩ := n
      simp [Element.withLead, Element.lexemes, Node.lexemes, leadTokens_eq_nil]

theorem delimiterTokens_withLead (layout : Layout) (e : Element) (lead : String)
    (es : List Element) :
    layout.delimiterTokens (e.withLead lead) es = layout.delimiterTokens e es := by
  cases layout <;> cases e <;> rfl

theorem lead_eq_of_lexemes_eq_nil {e : Element} (h : ∀ n, e = .node n → n.Anchored)
    (hnil : e.lexemes = []) : e.lead = "" := by
  cases e with
  | token t => cases hnil
  | node n =>
      have hn := h n rfl
      obtain ⟨kind, lead, children, markers, type?⟩ := n
      exact hn (leadTokens_eq_nil.1 hnil)

/-- Hoisting the trivia of the first child changes no token. -/
theorem lexemes_hoisted (kind : Tree.Kind) {es : List Element}
    (h : ∀ n, Element.node n ∈ es → n.Anchored) :
    (Node.hoisted kind es).lexemes = Node.lexemesIn kind.layout es := by
  cases es with
  | nil => rfl
  | cons e es =>
      have he : ∀ n, e = .node n → n.Anchored := by
        rintro n rfl
        exact h n (by simp)
      simp only [Node.hoisted, Node.lexemes, Node.lexemesIn, delimiterTokens_withLead]
      by_cases hnil : e.lexemes = []
      · rw [lead_eq_of_lexemes_eq_nil he hnil, leadTokens_empty, hnil,
          lexemes_withLead_eq_nil.2 hnil]
      · have hne : (e.withLead "").lexemes ≠ [] := fun h => hnil (lexemes_withLead_eq_nil.1 h)
        rw [List.append_assoc, leadTokens_append _ hne, lexemes_withLead_empty,
          List.append_assoc]

theorem anchored_hoisted (kind : Tree.Kind) {es : List Element}
    (h : ∀ n, Element.node n ∈ es → n.Anchored) : (Node.hoisted kind es).Anchored := by
  cases es with
  | nil => exact fun _ => rfl
  | cons e es =>
      have he : ∀ n, e = .node n → n.Anchored := by
        rintro n rfl
        exact h n (by simp)
      intro hnil
      simp only [Node.hoisted, Node.lexemesIn, List.append_eq_nil_iff,
        lexemes_withLead_eq_nil] at hnil
      exact lead_eq_of_lexemes_eq_nil he hnil.1.1

end Codemod.Java
