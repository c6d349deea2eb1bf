import Codemod.Proofs.Java.Run
import Codemod.Proofs.Java.Shape

/-!
What a parser grows out of the tokens that it takes. A node is grown if its lexemes are the
tokens taken and all nodes in it have the shape of a unit's nodes. The main statements say for
each way to combine parsers that it grows nodes if its parts do.
-/

namespace Codemod.Java

open Codemod.Tree

/-- The node holds the tokens between two states. -/
structure Grown (start : Tokens) (n : Node) (finish : Tokens) : Prop where
  passes : start.Passes n.lexemes finish
  shaped : n.Everywhere Shaped
  unmarked : n.markers = []

/-- The children hold the tokens between two states. -/
structure GrownAll (start : Tokens) (children : List Element) (finish : Tokens) : Prop where
  passes : start.Passes (Node.lexemesIn .sequence children) finish
  shaped : ∀ c, Element.node c ∈ children → c.Everywhere Shaped
  unmarked : ∀ c, Element.node c ∈ children → c.markers = []

theorem anchored_of_everywhere {n : Node} (h : n.Everywhere Shaped) : n.Anchored :=
  (everywhere_iff.1 h).1.anchored

namespace GrownAll

variable {s t u : Tokens}

theorem nil (t : Tokens) : GrownAll t [] t where
  passes := .refl t
  shaped := nofun
  unmarked := nofun

theorem append {es fs : List Element} (h : GrownAll s es t) (h' : GrownAll t fs u) :
    GrownAll s (es ++ fs) u where
  passes := by
    rw [lexemesIn_sequence_append]
    exact h.passes.trans h'.passes
  shaped := fun c hc => (List.mem_append.1 hc).elim (h.shaped c) (h'.shaped c)
  unmarked := fun c hc => (List.mem_append.1 hc).elim (h.unmarked c) (h'.unmarked c)

theorem node {n : Node} (h : Grown s n t) : GrownAll s [.node n] t where
  passes := by simpa [Node.lexemesIn, Element.lexemes, Layout.delimiterTokens] using h.passes
  shaped := by
    intro c hc
    cases List.mem_singleton.1 hc
    exact h.shaped
  unmarked := by
    intro c hc
    cases List.mem_singleton.1 hc
    exact h.unmarked

theorem token {p : Token → Bool} {wanted : Wanted} {token : Token}
    (h : Parser.takeIf p wanted s = .ok (token, t)) : GrownAll s [.token token] t := by
  obtain ⟨lexed, rest, hs, rfl, rfl, _⟩ := Parser.takeIf_run.1 h
  refine ⟨⟨rfl, [lexed], ?_, rfl⟩, by simp, by simp⟩
  rw [hs]
  rfl

theorem genuine {es : List Element} (h : GrownAll s es t) (hs : s.Genuine) : t.Genuine :=
  h.passes.genuine hs

theorem anchored {es : List Element} (h : GrownAll s es t) :
    ∀ c, Element.node c ∈ es → c.Anchored :=
  fun c hc => anchored_of_everywhere (h.shaped c hc)

end GrownAll

/-- No part of a node of this kind is looked at by itself. -/
def Kind.isPlain : Kind → Bool
  | .compilationUnit | .empty | .block | .classDeclaration | .classBody | .enumBody
  | .enumConstants | .tryResources | .importClause | .qualifiedName | .extendsClause
  | .implementsClause | .throwsClause | .arguments | .parameters | .declarators
  | .methodDeclaration => false
  | _ => true

theorem inner_of_isPlain {k : Kind} (h : k.isPlain = true) : k ≠ .compilationUnit := by
  rintro rfl
  cases h

theorem shape_of_isPlain {k : Kind} (h : k.isPlain = true) (children : List Element) :
    KindShape k children := by
  cases k <;> first | exact trivial | cases h

theorem closing_of_isPlain {k : Kind} (h : k.isPlain = true) (children : List Element) :
    Closing k children := by
  cases k <;> first | exact trivial | cases h

theorem separated_withLead {separator : Delimiter} {closer : Option Delimiter} {n : Node}
    {items : List Node} (h : Separated separator closer (n :: items)) :
    Separated separator closer ({ n with lead := "" } :: items) := by
  cases h with
  | last h => exact .last h
  | cons before h hrest => exact .cons before h hrest

theorem layoutShape_hoisted (kind : Tree.Kind) {layout : Layout} {es : List Element}
    (h : LayoutShape layout es) : LayoutShape layout (Node.hoisted kind es).children := by
  cases es with
  | nil => exact h
  | cons e es =>
      cases layout with
      | sequence =>
          intro c hc
          rcases List.mem_cons.1 hc with hc | hc
          · cases e with
            | token t => cases hc
            | node n =>
                cases hc
                exact h n (by simp)
          · exact h c (List.mem_cons_of_mem e hc)
      | separated separator closer =>
          obtain ⟨before, after, items, hes, hitems⟩ := h
          cases before with
          | cons t before =>
              cases hes
              exact ⟨{ t with lead := "" } :: before, after, items, rfl, hitems⟩
          | nil =>
              cases items with
              | cons n items =>
                  cases hes
                  exact ⟨[], after, { n with lead := "" } :: items, rfl,
                    separated_withLead hitems⟩
              | nil =>
                  cases after with
                  | nil => cases hes
                  | cons t after =>
                      cases hes
                      exact ⟨[], { t with lead := "" } :: after, [], rfl, .nil⟩

theorem shaped_hoisted {k : Kind} {es : List Element} (hk : k ≠ .compilationUnit)
    (hanchored : ∀ c, Element.node c ∈ es → c.Anchored)
    (hlayout : LayoutShape (Tree.Kind.java k).layout es)
    (hshape : KindShape k (Node.hoisted (.java k) es).children)
    (hclosing : Closing k (Node.hoisted (.java k) es).children) :
    Shaped (Node.hoisted (.java k) es) := by
  refine ⟨?_, anchored_hoisted _ hanchored, ?_, ?_, ⟨k, ?_, hk, hshape⟩, fun k' hk' => ?_⟩
  · cases es <;> rfl
  · cases es with
    | nil => simp [Node.hoisted]
    | cons e es => simp [Node.hoisted, Element.lead_withLead]
  · have h := layoutShape_hoisted (.java k) hlayout
    cases es <;> exact h
  · cases es <;> rfl
  · obtain rfl : k = k' := by cases es <;> exact Tree.Kind.java.inj hk'
    exact hclosing

theorem everywhere_markers {n : Node} (markers : Markers) (h : n.Everywhere Shaped) :
    ({ n with markers } : Node).Everywhere Shaped := by
  obtain ⟨hn, hchildren⟩ := everywhere_iff.1 h
  exact everywhere_iff.2
    ⟨⟨hn.untyped, hn.anchored, hn.first, hn.layout, hn.kind, hn.closing⟩, hchildren⟩

theorem everywhere_lead {n : Node} (h : n.Everywhere Shaped) :
    ({ n with lead := "" } : Node).Everywhere Shaped := by
  obtain ⟨hn, hchildren⟩ := everywhere_iff.1 h
  exact everywhere_iff.2
    ⟨⟨hn.untyped, fun _ => rfl, hn.first, hn.layout, hn.kind, hn.closing⟩, hchildren⟩

/-- The child nodes of a hoisted node are those given, up to the trivia in front of the first. -/
theorem mem_children_hoisted {kind : Tree.Kind} {es : List Element} {c : Node}
    (h : Element.node c ∈ (Node.hoisted kind es).children) :
    ∃ d, Element.node d ∈ es ∧ (c = d ∨ c = { d with lead := "" }) := by
  cases es with
  | nil => cases h
  | cons e es =>
      rcases List.mem_cons.1 h with h | h
      · cases e with
        | token t => cases h
        | node n =>
            cases h
            exact ⟨n, by simp, .inr rfl⟩
      · exact ⟨c, List.mem_cons_of_mem _ h, .inl rfl⟩

theorem token_of_hoisted (kind : Tree.Kind) {k : TokenKind} {token : Token} {es : List Element}
    (hkind : token.kind = k) (h : Element.token token ∈ es) :
    ∃ name : Token, name.kind = k ∧ .token name ∈ (Node.hoisted kind es).children := by
  cases es with
  | nil => cases h
  | cons e es =>
      rcases List.mem_cons.1 h with rfl | h
      · exact ⟨{ token with lead := "" }, hkind, List.mem_cons_self⟩
      · exact ⟨token, hkind, List.mem_cons_of_mem _ h⟩

theorem naming_hoisted (kind : Tree.Kind) {es : List Element} (h : Naming es) :
    Naming (Node.hoisted kind es).children := by
  cases es with
  | nil => exact h
  | cons e es =>
      intro t ht
      rcases List.mem_cons.1 ht with ht | ht
      · cases e with
        | token t' =>
            cases ht
            exact h t' List.mem_cons_self
        | node n => cases ht
      · exact h t (List.mem_cons_of_mem e ht)

theorem naming_append {es es' : List Element} (h : Naming es) (h' : Naming es') :
    Naming (es ++ es') :=
  fun t ht => (List.mem_append.1 ht).elim (h t) (h' t)

theorem grown_hoisted {s t : Tokens} {k : Kind} {es : List Element}
    (hpasses : s.Passes (Node.lexemesIn (Tree.Kind.java k).layout es) t)
    (hchildren : ∀ c, Element.node c ∈ es → c.Everywhere Shaped)
    (hshaped : Shaped (Node.hoisted (.java k) es)) : Grown s (Node.hoisted (.java k) es) t where
  passes := by rwa [lexemes_hoisted _ fun c hc => anchored_of_everywhere (hchildren c hc)]
  shaped := by
    refine everywhere_iff.2 ⟨hshaped, fun c hc => ?_⟩
    obtain ⟨d, hd, rfl | rfl⟩ := mem_children_hoisted hc
    · exact hchildren c hd
    · exact everywhere_lead (hchildren d hd)
  unmarked := by cases es <;> rfl

theorem GrownAll.hoisted_of_shape {s t : Tokens} {k : Kind} {es : List Element}
    (hlayout : (Tree.Kind.java k).layout = .sequence) (hk : k ≠ .compilationUnit)
    (h : GrownAll s es t) (hshape : KindShape k (Node.hoisted (.java k) es).children)
    (hclosing : Closing k (Node.hoisted (.java k) es).children) :
    Grown s (Node.hoisted (.java k) es) t := by
  refine grown_hoisted (hlayout ▸ h.passes) h.shaped
    (shaped_hoisted hk h.anchored ?_ hshape hclosing)
  rw [hlayout]
  exact h.unmarked

theorem GrownAll.hoisted {s t : Tokens} {k : Kind} {es : List Element} (h : GrownAll s es t)
    (hk : k.isPlain = true) (hlayout : (Tree.Kind.java k).layout = .sequence) :
    Grown s (Node.hoisted (.java k) es) t :=
  h.hoisted_of_shape hlayout (inner_of_isPlain hk) (shape_of_isPlain hk _) (closing_of_isPlain hk _)

/-! ### Ways to combine parsers -/

namespace Parser

variable {α : Type}

/-- Each success of the parser on genuine tokens satisfies the relation between the tokens
ahead, the value made of them and the tokens left. -/
def Ensures (post : Tokens → α → Tokens → Prop) (p : Parser α) : Prop :=
  ∀ {t a u}, t.Genuine → p t = .ok (a, u) → post t a u

/-- The parser's nodes are grown out of the tokens that it takes. -/
abbrev Grows : Parser Node → Prop :=
  Ensures Grown

/-- The parser's children are grown out of the tokens that it takes. -/
abbrev Yields : Parser (List Element) → Prop :=
  Ensures GrownAll

/-- All of the parsers grow children. -/
inductive YieldsAll : List (Parser (List Element)) → Prop where
  | nil : YieldsAll []
  | cons {p : Parser (List Element)} {ps : List (Parser (List Element))} (h : Yields p)
      (hs : YieldsAll ps) : YieldsAll (p :: ps)

/-- The parser's nodes are grown out of given children and the tokens that it takes. -/
def Extends (start : List Element) (p : Parser Node) : Prop :=
  ∀ {s t n u}, s.Genuine → GrownAll s start t → p t = .ok (n, u) → Grown s n u

/-- The parser takes no token. -/
def Peeks (p : Parser Bool) : Prop :=
  ∀ {t b u}, p t = .ok (b, u) → u = t

theorem peeks_test {p : Token → Bool} {n : Nat} : Peeks (test p n) := by
  intro t b u h
  cases h
  rfl

theorem peeks_sees {text : String} {n : Nat} : Peeks (sees text n) :=
  peeks_test

theorem peeks_pure {b : Bool} : Peeks (pure b) := by
  intro t b u h
  cases h
  rfl

theorem peeks_foresee {p : Parser Bool} : Peeks (foresee p) := by
  intro t b u h
  unfold foresee at h
  split at h <;> cases h <;> rfl

theorem Peeks.bind {p : Parser Bool} {f : Bool → Parser Bool} (hp : Peeks p)
    (hf : ∀ b, Peeks (f b)) : Peeks (p >>= f) := by
  intro t b u h
  obtain ⟨c, v, hc, hf'⟩ := bind_run.1 h
  cases hp hc
  exact hf c hf'

theorem Peeks.cond {c p q : Parser Bool} (hc : Peeks c) (hp : Peeks p) (hq : Peeks q) :
    Peeks (do if ← c then p else q) := by
  refine hc.bind fun b => ?_
  cases b
  · exact hq
  · exact hp

theorem Ensures.cond {post : Tokens → α → Tokens → Prop} {c : Parser Bool} {p q : Parser α}
    (hc : Peeks c) (hp : Ensures post p) (hq : Ensures post q) :
    Ensures post (do if ← c then p else q) := by
  intro t a u ht h
  obtain ⟨b, v, hb, h⟩ := bind_run.1 h
  cases hc hb
  cases b
  · exact hq ht h
  · exact hp ht h

theorem Ensures.fail {post : Tokens → α → Tokens → Prop} {error : Nat → ParseError} :
    Ensures post (fail error : Parser α) :=
  fun _ h => absurd h fail_run

theorem Ensures.expected {post : Tokens → α → Tokens → Prop} {wanted : Wanted} :
    Ensures post (expected wanted : Parser α) :=
  fun _ h => absurd h expected_run

theorem Ensures.ite {post : Tokens → α → Tokens → Prop} {c : Bool} {p q : Parser α}
    (hp : Ensures post p) (hq : Ensures post q) : Ensures post (if c then p else q) := by
  cases c
  · exact hq
  · exact hp

theorem Extends.peek {start : List Element} {c : Parser Bool} {f : Bool → Parser Node}
    (hc : Peeks c) (hf : ∀ b, Extends start (f b)) : Extends start (c >>= f) := by
  intro s t n u hs hstart h
  obtain ⟨b, v, hb, h⟩ := bind_run.1 h
  cases hc hb
  exact hf b hs hstart h

theorem Extends.cond {start : List Element} {c : Parser Bool} {p q : Parser Node}
    (hc : Peeks c) (hp : Extends start p) (hq : Extends start q) :
    Extends start (do if ← c then p else q) := by
  refine Extends.peek hc fun b => ?_
  cases b
  · exact hq
  · exact hp

theorem Extends.grows {p : Parser Node} (h : Extends [] p) : Grows p :=
  fun ht hp => h ht (.nil _) hp

theorem Extends.bind {start : List Element} {p : Parser (List Element)}
    {f : List Element → Parser Node} (hp : Yields p) (hf : ∀ es, Extends (start ++ es) (f es)) :
    Extends start (p >>= f) := by
  intro s t n u hs hstart h
  obtain ⟨es, v, hes, h⟩ := bind_run.1 h
  exact hf es hs (hstart.append (hp (hstart.genuine hs) hes)) h

theorem Extends.bind_of {P : List Element → Prop} {start : List Element}
    {p : Parser (List Element)} {f : List Element → Parser Node} (hp : Yields p)
    (hP : ∀ {t es u}, p t = .ok (es, u) → P es) (hf : ∀ es, P es → Extends (start ++ es) (f es)) :
    Extends start (p >>= f) := by
  intro s t n u hs hstart h
  obtain ⟨es, v, hes, h⟩ := bind_run.1 h
  exact hf es (hP hes) hs (hstart.append (hp (hstart.genuine hs) hes)) h

theorem Extends.bind_take {start : List Element} {p : Token → Bool} {wanted : Wanted}
    {f : Token → Parser Node} (hf : ∀ token, Extends (start ++ [.token token]) (f token)) :
    Extends start (takeIf p wanted >>= f) := by
  intro s t n u hs hstart h
  obtain ⟨token, v, htoken, h⟩ := bind_run.1 h
  exact hf token hs (hstart.append (.token htoken)) h

theorem Extends.fail {start : List Element} {error : Nat → ParseError} :
    Extends start (Parser.fail error) :=
  fun _ _ h => absurd h fail_run

theorem Extends.ite {start : List Element} {c : Bool} {p q : Parser Node}
    (hp : Extends start p) (hq : Extends start q) : Extends start (if c then p else q) := by
  cases c
  · exact hq
  · exact hp

theorem Extends.expected {start : List Element} {wanted : Wanted} :
    Extends start (Parser.expected wanted) :=
  fun _ _ h => absurd h expected_run

theorem Extends.hoisted {start : List Element} {k : Kind} (hk : k.isPlain = true)
    (hlayout : (Tree.Kind.java k).layout = .sequence) :
    Extends start (pure (Node.hoisted (.java k) start)) := by
  intro s t n u _ hstart h
  cases h
  exact hstart.hoisted hk hlayout

theorem Ensures.and {post post' : Tokens → α → Tokens → Prop} {p : Parser α}
    (h : Ensures post p) (h' : Ensures post' p) :
    Ensures (fun t a u => post t a u ∧ post' t a u) p :=
  fun ht hp => ⟨h ht hp, h' ht hp⟩

theorem yields_nil : Yields (pure []) := by
  intro t es u _ h
  cases h
  exact .nil t

theorem yields_tok {p : Token → Bool} {wanted : Wanted} : Yields (tok (takeIf p wanted)) := by
  intro t es u _ h
  obtain ⟨token, v, htoken, h⟩ := bind_run.1 h
  cases h
  exact .token htoken

theorem yields_one {p : Parser Node} (hp : Grows p) : Yields (one p) := by
  intro t es u ht h
  obtain ⟨n, v, hn, h⟩ := bind_run.1 h
  cases h
  exact .node (hp ht hn)

theorem yields_optional {c : Parser Bool} {p : Parser (List Element)} (hc : Peeks c)
    (hp : Yields p) : Yields (optional c p) :=
  Ensures.cond hc hp yields_nil

theorem parts_nil_run {t u : Tokens} {es : List Element} :
    parts [] t = .ok (es, u) ↔ es = [] ∧ u = t :=
  pure_run

theorem parts_cons_run {p : Parser (List Element)} {ps : List (Parser (List Element))}
    {t v : Tokens} {es : List Element} :
    parts (p :: ps) t = .ok (es, v) ↔
      ∃ first u others, p t = .ok (first, u) ∧ parts ps u = .ok (others, v) ∧
        es = first ++ others := by
  rw [parts, bind_run]
  constructor
  · rintro ⟨first, u, hfirst, h⟩
    obtain ⟨others, w, hothers, h⟩ := bind_run.1 h
    cases h
    exact ⟨first, u, others, hfirst, hothers, rfl⟩
  · rintro ⟨first, u, others, hfirst, hothers, rfl⟩
    exact ⟨first, u, hfirst, bind_run.2 ⟨others, v, hothers, rfl⟩⟩

theorem tok_run {p : Parser Token} {t u : Tokens} {es : List Element} :
    tok p t = .ok (es, u) ↔ ∃ a, p t = .ok (a, u) ∧ es = [.token a] := by
  rw [tok, bind_run]
  constructor
  · rintro ⟨a, v, ha, h⟩
    cases h
    exact ⟨a, ha, rfl⟩
  · rintro ⟨a, ha, rfl⟩
    exact ⟨a, u, ha, rfl⟩

theorem one_run {p : Parser Node} {t u : Tokens} {es : List Element} :
    one p t = .ok (es, u) ↔ ∃ n, p t = .ok (n, u) ∧ es = [.node n] := by
  rw [one, bind_run]
  constructor
  · rintro ⟨n, v, hn, h⟩
    cases h
    exact ⟨n, hn, rfl⟩
  · rintro ⟨n, hn, rfl⟩
    exact ⟨n, u, hn, rfl⟩

theorem parts_tok_run {p : Parser Token} {ps : List (Parser (List Element))}
    {t v : Tokens} {es : List Element} :
    parts (tok p :: ps) t = .ok (es, v) ↔
      ∃ a u others, p t = .ok (a, u) ∧ parts ps u = .ok (others, v) ∧
        es = .token a :: others := by
  rw [parts_cons_run]
  constructor
  · rintro ⟨_, u, others, hfirst, hothers, rfl⟩
    obtain ⟨a, ha, rfl⟩ := tok_run.1 hfirst
    exact ⟨a, u, others, ha, hothers, rfl⟩
  · rintro ⟨a, u, others, ha, hothers, rfl⟩
    exact ⟨_, u, others, tok_run.2 ⟨a, ha, rfl⟩, hothers, rfl⟩

theorem parts_one_run {p : Parser Node} {ps : List (Parser (List Element))}
    {t v : Tokens} {es : List Element} :
    parts (one p :: ps) t = .ok (es, v) ↔
      ∃ n u others, p t = .ok (n, u) ∧ parts ps u = .ok (others, v) ∧
        es = .node n :: others := by
  rw [parts_cons_run]
  constructor
  · rintro ⟨_, u, others, hfirst, hothers, rfl⟩
    obtain ⟨n, hn, rfl⟩ := one_run.1 hfirst
    exact ⟨n, u, others, hn, hothers, rfl⟩
  · rintro ⟨n, u, others, hn, hothers, rfl⟩
    exact ⟨_, u, others, one_run.2 ⟨n, hn, rfl⟩, hothers, rfl⟩

theorem yields_parts {ps : List (Parser (List Element))} (h : YieldsAll ps) :
    Yields (parts ps) := by
  induction h with
  | nil => exact yields_nil
  | cons hp hps ih =>
      intro t es u ht h
      obtain ⟨first, v, others, hfirst, hothers, rfl⟩ := parts_cons_run.1 h
      have hgrown := hp ht hfirst
      exact hgrown.append (ih (hgrown.genuine ht) hothers)

theorem build_run {k : Kind} {ps : List (Parser (List Element))} {t u : Tokens} {n : Node} :
    build k ps t = .ok (n, u) ↔
      ∃ es, parts ps t = .ok (es, u) ∧ n = Node.hoisted (.java k) es := by
  rw [build, bind_run]
  constructor
  · rintro ⟨es, v, hes, h⟩
    cases h
    exact ⟨es, hes, rfl⟩
  · rintro ⟨es, hes, rfl⟩
    exact ⟨es, u, hes, rfl⟩

theorem hoisted_kind (kind : Tree.Kind) (es : List Element) :
    (Node.hoisted kind es).kind = kind := by
  cases es <;> rfl

theorem build_kind {k : Kind} {ps : List (Parser (List Element))} {t u : Tokens} {n : Node}
    (h : build k ps t = .ok (n, u)) : n.kind = .java k := by
  obtain ⟨es, _, rfl⟩ := build_run.1 h
  exact hoisted_kind _ es

theorem grows_build {k : Kind} {ps : List (Parser (List Element))} (h : YieldsAll ps)
    (hk : k.isPlain = true) (hlayout : (Tree.Kind.java k).layout = .sequence) :
    Grows (build k ps) := by
  intro t n u ht hn
  obtain ⟨es, hes, rfl⟩ := build_run.1 hn
  exact (yields_parts h ht hes).hoisted hk hlayout

theorem extends_build {k : Kind} {start : List Element} {ps : List (Parser (List Element))}
    (h : YieldsAll ps) (hk : k.isPlain = true)
    (hlayout : (Tree.Kind.java k).layout = .sequence) :
    Extends start (build k (pure start :: ps)) := by
  intro s t n u hs hstart hn
  obtain ⟨es, hes, rfl⟩ := build_run.1 hn
  obtain ⟨first, v, others, hfirst, hothers, rfl⟩ := parts_cons_run.1 hes
  cases hfirst
  exact (hstart.append (yields_parts h (hstart.genuine hs) hothers)).hoisted hk hlayout

/-! ### Loops -/

/-- What holds at the start of a loop and is kept by each round holds at its end. -/
theorem iterate_induct {step : α → Parser (α × Bool)} {P Q : α → Tokens → Prop}
    (hmore : ∀ {a t b u}, P a t → step a t = .ok ((b, true), u) → P b u)
    (hdone : ∀ {a t b u}, P a t → step a t = .ok ((b, false), u) → Q b u)
    {a b : α} {t u : Tokens} (ha : P a t) (h : iterate step a t = .ok (b, u)) : Q b u := by
  change repeatWithin step (t.ahead.length + 1) a t = .ok (b, u) at h
  generalize t.ahead.length + 1 = limit at h
  induction limit generalizing a t with
  | zero => exact absurd h fail_run
  | succ limit ih =>
      obtain ⟨⟨c, more⟩, v, hstep, h⟩ := bind_run.1 h
      cases more with
      | true => exact ih (hmore ha hstep) h
      | false =>
          cases h
          exact hdone ha hstep

theorem manyStep_run {c : Parser Bool} {p : Parser (List Element)} (hc : Peeks c)
    {done done' : List Element} {more : Bool} {t u : Tokens} :
    manyStep c p done t = .ok ((done', more), u) ↔
      c t = .ok (more, t) ∧
        (more = true ∧ (∃ next, p t = .ok (next, u) ∧ done' = done ++ next) ∨
          more = false ∧ done' = done ∧ u = t) := by
  rw [manyStep, bind_run]
  constructor
  · rintro ⟨b, v, hb, h⟩
    cases hc hb
    cases b with
    | false =>
        cases h
        exact ⟨hb, .inr ⟨rfl, rfl, rfl⟩⟩
    | true =>
        obtain ⟨next, w, hnext, h⟩ := bind_run.1 h
        cases h
        exact ⟨hb, .inl ⟨rfl, next, hnext, rfl⟩⟩
  · rintro ⟨hb, ⟨rfl, next, hnext, rfl⟩ | ⟨rfl, rfl, rfl⟩⟩
    · exact ⟨true, t, hb, bind_run.2 ⟨next, u, hnext, rfl⟩⟩
    · exact ⟨false, u, hb, rfl⟩

theorem yields_manyWhile {c : Parser Bool} {p : Parser (List Element)} (hc : Peeks c)
    (hp : Yields p) : Yields (manyWhile c p) := by
  intro t es u ht h
  refine iterate_induct (P := fun done v => GrownAll t done v)
    (Q := fun done v => GrownAll t done v) ?_ ?_ (.nil t) h
  · intro done v done' w hdone hstep
    obtain ⟨_, ⟨_, next, hnext, rfl⟩ | ⟨⟨⟩, _⟩⟩ := (manyStep_run hc).1 hstep
    exact hdone.append (hp (hdone.genuine ht) hnext)
  · intro done v done' w hdone hstep
    obtain ⟨_, ⟨⟨⟩, _⟩ | ⟨_, rfl, rfl⟩⟩ := (manyStep_run hc).1 hstep
    exact hdone

theorem manyWhile_items {c : Parser Bool} {p : Parser Node} (hc : Peeks c) {t u : Tokens}
    {es : List Element} (h : manyWhile c (one p) t = .ok (es, u)) :
    ∃ items : List Node, es = items.map .node ∧ ∀ n ∈ items, ∃ v w, p v = .ok (n, w) := by
  have hstart : ∃ items : List Node, [] = items.map Element.node ∧
      ∀ n ∈ items, ∃ v w, p v = .ok (n, w) :=
    ⟨[], rfl, nofun⟩
  refine iterate_induct
    (P := fun done _ => ∃ items : List Node, done = items.map .node ∧
      ∀ n ∈ items, ∃ v w, p v = .ok (n, w))
    (Q := fun done _ => ∃ items : List Node, done = items.map .node ∧
      ∀ n ∈ items, ∃ v w, p v = .ok (n, w)) ?_ ?_ hstart h
  · rintro _ v done w ⟨items, rfl, hitems⟩ hstep
    obtain ⟨_, ⟨_, next, hnext, rfl⟩ | ⟨⟨⟩, _⟩⟩ := (manyStep_run hc).1 hstep
    obtain ⟨n, hn, rfl⟩ := one_run.1 hnext
    refine ⟨items ++ [n], by simp, fun m hm => ?_⟩
    rcases List.mem_append.1 hm with hm | hm
    · exact hitems m hm
    · cases List.mem_singleton.1 hm
      exact ⟨v, w, hn⟩
  · rintro _ v done w hdone hstep
    obtain ⟨_, ⟨⟨⟩, _⟩ | ⟨_, rfl, rfl⟩⟩ := (manyStep_run hc).1 hstep
    exact hdone

theorem manyWhile_ends {c : Parser Bool} {p : Parser (List Element)} (hc : Peeks c) {t u : Tokens}
    {es : List Element} (h : manyWhile c p t = .ok (es, u)) : c u = .ok (false, u) := by
  refine iterate_induct (P := fun _ _ => True) (Q := fun _ v => c v = .ok (false, v))
    (fun _ _ => trivial) ?_ trivial h
  intro done v done' w _ hstep
  obtain ⟨hends, ⟨⟨⟩, _⟩ | ⟨_, _, rfl⟩⟩ := (manyStep_run hc).1 hstep
  exact hends

/-- The step's node is grown out of the operand and the tokens that it takes. -/
def Advances (operand : Node) (p : Parser (Node × Bool)) : Prop :=
  ∀ {s t b u}, s.Genuine → Grown s operand t → p t = .ok (b, u) → Grown s b.1 u

theorem Advances.cond {operand : Node} {c : Parser Bool} {p q : Parser (Node × Bool)}
    (hc : Peeks c) (hp : Advances operand p) (hq : Advances operand q) :
    Advances operand (do if ← c then p else q) := by
  intro s t b u hs hgrown h
  obtain ⟨present, v, hpresent, h⟩ := bind_run.1 h
  cases hc hpresent
  cases present
  · exact hq hs hgrown h
  · exact hp hs hgrown h

theorem Advances.fail {operand : Node} {error : Nat → ParseError} :
    Advances operand (Parser.fail error) :=
  fun _ _ h => absurd h fail_run

theorem Advances.stop {operand : Node} : Advances operand (pure (operand, false)) := by
  intro s t b u _ hgrown h
  cases h
  exact hgrown

theorem Advances.of_extends {operand : Node} {p : Parser Node} {more : Bool}
    (hp : Extends [.node operand] p) :
    Advances operand (do return (← p, more)) := by
  intro s t b u hs hgrown h
  obtain ⟨n, v, hn, h⟩ := bind_run.1 h
  cases h
  exact hp hs (.node hgrown) hn

theorem grows_iterate {step : Node → Parser (Node × Bool)} {p : Parser Node} (hp : Grows p)
    (hstep : ∀ a, Advances a (step a)) : Grows (p >>= iterate step) := by
  intro t n u ht h
  obtain ⟨first, v, hfirst, h⟩ := bind_run.1 h
  exact iterate_induct (P := fun a w => Grown t a w) (Q := fun a w => Grown t a w)
    (fun ha hrun => hstep _ ht ha hrun) (fun ha hrun => hstep _ ht ha hrun)
    (hp ht hfirst) h

end Parser

end Codemod.Java
