import Codemod.Java.Parser.Basic
import Codemod.Proofs.Java.Run
import Codemod.Proofs.Tree.Everywhere

/-!
Texts that a parser cannot tell apart. A relabelling puts other trivia and other words of
identifiers into a text, and each way to combine parsers does with the relabelled tokens what it
does with the tokens, if its parts do. How deep constructs may stand inside each other makes no
difference as long as there are fewer tokens.
-/

namespace Codemod.Java

open Codemod.Tree

/-- What stands in place of trivia and of words of identifiers. Where there is no trivia, there is
none in its place. -/
structure Relabelling where
  lead : String → String
  word : String → String
  isEmpty_lead : ∀ s, (lead s).isEmpty = s.isEmpty

namespace Relabelling

variable (φ : Relabelling)

/-- The token under its label. -/
def token (t : Token) : Token :=
  { t with
    lead := φ.lead t.lead
    text := if t.kind = .identifier then φ.word t.text else t.text }

/-- The token under its label, wherever it stands in a text. -/
def lexed (l : Lexed) : Lexed :=
  ⟨φ.token l.token, 0⟩

/-- A tokenized text under its labels. -/
def tokens (t : Tokens) : Tokens :=
  ⟨t.ahead.map φ.lexed, φ.lexed t.last⟩

/-- Delimiters with other trivia in front of them. -/
def markers (ms : Markers) : Markers :=
  ms.map fun m => { m with before := φ.lead m.before }

mutual

/-- The tree under its labels. -/
def node : Node → Node
  | ⟨kind, lead, children, markers, type?⟩ =>
      ⟨kind, φ.lead lead, elements children, φ.markers markers, type?⟩

/-- The child under its labels. -/
def element : Element → Element
  | .node n => .node (node n)
  | .token t => .token (φ.token t)

/-- Children under their labels. -/
def elements : List Element → List Element
  | [] => []
  | e :: es => element e :: elements es

end

theorem lead_empty : φ.lead "" = "" :=
  String.isEmpty_iff.1 ((φ.isEmpty_lead "").trans rfl)

theorem elements_eq_map (es : List Element) : φ.elements es = es.map φ.element := by
  induction es with
  | nil => rfl
  | cons e es ih => rw [elements, ih, List.map_cons]

theorem elements_append (es fs : List Element) :
    φ.elements (es ++ fs) = φ.elements es ++ φ.elements fs := by
  simp only [elements_eq_map, List.map_append]

theorem elements_map_node (ns : List Node) :
    φ.elements (ns.map .node) = (ns.map φ.node).map .node := by
  rw [elements_eq_map, List.map_map, List.map_map]
  rfl

theorem node_hoisted (kind : Tree.Kind) (es : List Element) :
    φ.node (Node.hoisted kind es) = Node.hoisted kind (φ.elements es) := by
  cases es with
  | nil => simp [Node.hoisted, node, elements, lead_empty, markers]
  | cons e es =>
      cases e with
      | token t =>
          simp [Node.hoisted, node, elements, element, token, Element.lead, Element.withLead,
            lead_empty, markers]
      | node n =>
          obtain ⟨k, lead, children, ms, type?⟩ := n
          simp [Node.hoisted, node, elements, element, Element.lead, Element.withLead, lead_empty,
            markers]

theorem markers_put (ms : Markers) (marker : Marker) :
    φ.markers (ms.put marker) =
      (φ.markers ms).put { marker with before := φ.lead marker.before } := by
  simp [markers, Markers.put, Markers.erase, List.filter_map, Function.comp_def]

theorem node_closedBy (n : Node) (delimiter : Delimiter) (t : Token) :
    φ.node (closedBy n delimiter t) = closedBy (φ.node n) delimiter (φ.token t) := by
  obtain ⟨k, lead, children, ms, type?⟩ := n
  simp [closedBy, node, markers_put, token]

theorem node_spacedBy (n : Node) (t : Token) :
    φ.node (spacedBy n t) = spacedBy (φ.node n) (φ.token t) := by
  obtain ⟨k, lead, children, ms, type?⟩ := n
  simp [spacedBy, node, markers_put, token]

/-- An item and the separator behind it under their labels. -/
def pair (x : Node × Option Token) : Node × Option Token :=
  (φ.node x.1, x.2.map φ.token)

theorem map_withSeparators (delimiter : Delimiter) (pairs : List (Node × Option Token)) :
    (withSeparators delimiter pairs).map φ.node = withSeparators delimiter (pairs.map φ.pair) := by
  induction pairs with
  | nil => rfl
  | cons x pairs ih =>
      obtain ⟨n, _ | t⟩ := x
      · simp [withSeparators, pair, ih]
      · cases pairs with
        | nil => simp [withSeparators, pair, node_closedBy]
        | cons y pairs =>
            simp only [List.map_cons] at ih
            simp [withSeparators, pair, ih, node_spacedBy]

theorem token_front (t : Tokens) (n : Nat) : (φ.tokens t).nth n = φ.token (t.nth n) := by
  simp only [Tokens.nth, tokens, List.getElem?_map]
  cases t.ahead[n]? <;> rfl

/-- The test has the same answer for a token under its label. -/
def Ignores (p : Token → Bool) : Prop :=
  ∀ t, p (φ.token t) = p t

theorem ignores_kind (c : TokenKind → Bool) : φ.Ignores fun t => c t.kind :=
  fun _ => rfl

theorem ignores_text {c : TokenKind → Bool} (hc : c .identifier = false) (f : String → Bool) :
    φ.Ignores fun t => c t.kind && f t.text := by
  intro t
  by_cases hkind : t.kind = .identifier
  · simp [token, hkind, hc]
  · simp [token, hkind]

theorem ignores_isSign (text : String) : φ.Ignores (isSign · text) :=
  φ.ignores_text (c := fun k => k == .punct || k == .keyword) rfl (· == text)

theorem ignores_isOneOf (texts : List String) : φ.Ignores (isOneOf texts) := by
  intro t
  have hsign : isSign (φ.token t) = isSign t := funext fun text => φ.ignores_isSign text t
  rw [isOneOf, isOneOf, hsign]

theorem ignores_isIdentifier : φ.Ignores isIdentifier :=
  φ.ignores_kind (· == .identifier)

theorem ignores_isPrimitive : φ.Ignores isPrimitive :=
  φ.ignores_text (c := (· == .keyword)) rfl primitives.contains

end Relabelling

namespace Parser

variable {α β γ δ : Type}

/-- On fewer than `n` tokens, the second parser does with the relabelled tokens what the first one
does with the tokens, and no token comes back. -/
def Mirrors (φ : Relabelling) (n : Nat) (f : α → β) (p : Parser α) (q : Parser β) :
    Prop :=
  ∀ t : Tokens, t.ahead.length < n →
    (∀ a u, p t = .ok (a, u) →
      q (φ.tokens t) = .ok (f a, φ.tokens u) ∧ u.ahead.length ≤ t.ahead.length) ∧
    ∀ e, p t = .error e → ∃ e', q (φ.tokens t) = .error e'

/-- The parser takes at least one token where it succeeds. -/
def Takes (p : Parser α) : Prop :=
  ∀ {t a u}, p t = .ok (a, u) → u.ahead.length < t.ahead.length

variable {φ : Relabelling} {n : Nat}

theorem bind_error {p : Parser α} {k : α → Parser γ} {t : Tokens} {e : ParseError}
    (h : p t = .error e) : (p >>= k) t = .error e := by
  show (p t >>= fun x => k x.1 x.2) = _
  rw [h]
  rfl

theorem bind_ok {p : Parser α} {k : α → Parser γ} {t u : Tokens} {a : α} (h : p t = .ok (a, u)) :
    (p >>= k) t = k a u := by
  show (p t >>= fun x => k x.1 x.2) = _
  rw [h]
  rfl

theorem Mirrors.mono {f : α → β} {p : Parser α} {q : Parser β} (h : Mirrors φ (n + 1) f p q) :
    Mirrors φ n f p q :=
  fun t ht => h t (Nat.lt_succ_of_lt ht)

theorem mirrors_bind_within {m : Nat} {f : α → β} {g : γ → δ} {p : Parser α} {q : Parser β}
    {k : α → Parser γ} {l : β → Parser δ} (hp : Mirrors φ n f p q)
    (hless : ∀ {t a u}, t.ahead.length < n → p t = .ok (a, u) → u.ahead.length < m)
    (hk : ∀ a, Mirrors φ m g (k a) (l (f a))) : Mirrors φ n g (p >>= k) (q >>= l) := by
  intro t ht
  obtain ⟨hok, herror⟩ := hp t ht
  cases hrun : p t with
  | error e =>
      obtain ⟨e', he'⟩ := herror e hrun
      rw [bind_error hrun, bind_error he']
      exact ⟨nofun, fun _ _ => ⟨e', rfl⟩⟩
  | ok x =>
      obtain ⟨a, u⟩ := x
      obtain ⟨hrun', hle⟩ := hok a u hrun
      rw [bind_ok hrun, bind_ok hrun']
      obtain ⟨hok, herror⟩ := hk a u (hless ht hrun)
      exact ⟨fun c v hc => ⟨(hok c v hc).1, (hok c v hc).2.trans hle⟩, herror⟩

theorem Mirrors.bind {f : α → β} {g : γ → δ} {p : Parser α} {q : Parser β}
    {k : α → Parser γ} {l : β → Parser δ} (hp : Mirrors φ n f p q)
    (hk : ∀ a, Mirrors φ n g (k a) (l (f a))) : Mirrors φ n g (p >>= k) (q >>= l) :=
  mirrors_bind_within hp (fun ht hrun => ((hp _ ht).1 _ _ hrun).2.trans_lt ht) hk

theorem Mirrors.bind_takes {f : α → β} {g : γ → δ} {p : Parser α} {q : Parser β}
    {k : α → Parser γ} {l : β → Parser δ} (hp : Mirrors φ (n + 1) f p q) (htakes : Takes p)
    (hk : ∀ a, Mirrors φ n g (k a) (l (f a))) : Mirrors φ (n + 1) g (p >>= k) (q >>= l) :=
  mirrors_bind_within hp (fun ht hrun => (htakes hrun).trans_le (Nat.le_of_lt_succ ht)) hk

theorem mirrors_pure (f : α → β) (a : α) : Mirrors φ n f (pure a) (pure (f a)) := by
  intro t _
  refine ⟨fun b u h => ?_, nofun⟩
  obtain ⟨rfl, rfl⟩ := pure_run.1 h
  exact ⟨rfl, le_rfl⟩

theorem mirrors_fail {f : α → β} {error error' : Nat → ParseError} :
    Mirrors φ n f (fail error) (fail error') :=
  fun _ _ => ⟨fun _ _ h => absurd h fail_run, fun _ _ => ⟨_, rfl⟩⟩

theorem mirrors_expected {f : α → β} {wanted : Wanted} :
    Mirrors φ n f (expected wanted) (expected wanted) :=
  fun _ _ => ⟨fun _ _ h => absurd h expected_run, fun _ _ => ⟨_, rfl⟩⟩

theorem mirrors_test {p : Token → Bool} {k : Nat} (hp : φ.Ignores p) :
    Mirrors φ n id (test p k) (test p k) := by
  intro t _
  refine ⟨fun b u h => ?_, nofun⟩
  cases h
  refine ⟨?_, le_rfl⟩
  rw [test_run, φ.token_front, hp]
  rfl

theorem Mirrors.ite {f : α → β} {c : Bool} {p p' : Parser α} {q q' : Parser β}
    (hp : Mirrors φ n f p q) (hp' : Mirrors φ n f p' q') :
    Mirrors φ n f (if c then p else p') (if c then q else q') := by
  cases c
  · exact hp'
  · exact hp

theorem Mirrors.cond {f : α → β} {c c' : Parser Bool} {p p' : Parser α} {q q' : Parser β}
    (hc : Mirrors φ n id c c') (hp : Mirrors φ n f p q) (hp' : Mirrors φ n f p' q') :
    Mirrors φ n f (do if ← c then p else p') (do if ← c' then q else q') :=
  hc.bind fun _ => hp.ite hp'

theorem Mirrors.not {c c' : Parser Bool} (hc : Mirrors φ n id c c') :
    Mirrors φ n id (do return !(← c)) (do return !(← c')) :=
  hc.bind fun _ => mirrors_pure id _

theorem mirrors_unless {c p : Token → Bool} {construct : Construct} {f : α → β} {q : Parser α}
    {q' : Parser β} (hc : φ.Ignores c) (hp : ∀ t, p t = true → c t = true)
    (hq : ∀ t, c (t.nth 0) = true → ∀ a u, q t ≠ .ok (a, u))
    (hq' : ∀ t, c (t.nth 0) = true → ∀ b u, q' t ≠ .ok (b, u)) (h : Mirrors φ n f q q') :
    Mirrors φ n f (do if ← test p then unsupported construct else q)
      (do if ← test p then unsupported construct else q') := by
  have hrun : ∀ {γ : Type} (q : Parser γ) (t : Tokens),
      (do if ← test p then unsupported construct else q : Parser γ) t =
        if p (t.nth 0) then unsupported construct t else q t := by
    intro γ q t
    rw [bind_ok (test_run p 0 t)]
    split_ifs <;> rfl
  have hfails : ∀ {γ : Type} {q : Parser γ} {t : Tokens}, (∀ b u, q t ≠ .ok (b, u)) →
      ∃ e, q t = .error e := by
    intro γ q t hne
    cases hq : q t with
    | error e => exact ⟨e, rfl⟩
    | ok x => exact absurd hq (hne x.1 x.2)
  intro t ht
  rw [hrun, hrun]
  cases hfront : c (t.nth 0) with
  | true =>
      have hlabelled : c ((φ.tokens t).nth 0) = true := by rw [φ.token_front, hc, hfront]
      obtain ⟨e, he⟩ := hfails (hq t hfront)
      obtain ⟨e', he'⟩ := hfails (hq' _ hlabelled)
      refine ⟨fun a u hok => ?_, fun _ _ => ?_⟩
      · split_ifs at hok
        · exact absurd hok fail_run
        · exact absurd hok (hq t hfront a u)
      · split_ifs
        · exact ⟨_, rfl⟩
        · exact ⟨e', he'⟩
  | false =>
      have hnot : ∀ t, c t = false → ¬ p t = true := fun t hct hpt => by simp [hp t hpt] at hct
      rw [if_neg (hnot _ hfront), if_neg (hnot _ (by rw [φ.token_front, hc, hfront]))]
      exact h t ht

theorem takes_takeIf {p : Token → Bool} {wanted : Wanted} : Takes (takeIf p wanted) := by
  intro t a u h
  obtain ⟨lexed, rest, ht, rfl, _⟩ := takeIf_run.1 h
  rw [ht]
  exact Nat.lt_succ_self _

theorem mirrors_takeIf {p : Token → Bool} {wanted : Wanted} (hp : φ.Ignores p) :
    Mirrors φ n φ.token (takeIf p wanted) (takeIf p wanted) := by
  rintro ⟨ahead, last⟩ _
  cases ahead with
  | nil => exact ⟨nofun, fun _ _ => ⟨_, rfl⟩⟩
  | cons l rest =>
      have hlabelled : takeIf p wanted (φ.tokens ⟨l :: rest, last⟩) =
          if p l.token then .ok (φ.token l.token, φ.tokens ⟨rest, last⟩)
          else expected wanted (φ.tokens ⟨l :: rest, last⟩) := by
        rw [← hp l.token]
        exact takeIf_cons p wanted (φ.lexed l) (φ.lexed last) (rest.map φ.lexed)
      rw [takeIf_cons, hlabelled]
      by_cases hl : p l.token = true
      · rw [if_pos hl, if_pos hl]
        refine ⟨fun a u h => ?_, nofun⟩
        cases h
        exact ⟨rfl, Nat.le_succ _⟩
      · rw [if_neg hl, if_neg hl]
        exact ⟨fun _ _ h => absurd h expected_run, fun _ _ => ⟨_, rfl⟩⟩

theorem Mirrors.foresee {p q : Parser Bool} (hp : Mirrors φ n id p q) :
    Mirrors φ n id (foresee p) (foresee q) := by
  intro t ht
  obtain ⟨hok, herror⟩ := hp t ht
  cases hrun : p t with
  | error e =>
      obtain ⟨e', he'⟩ := herror e hrun
      refine ⟨fun b u h => ?_, fun e h => ?_⟩
      · rw [Parser.foresee, hrun] at h
        cases h
        rw [Parser.foresee, he']
        exact ⟨rfl, le_rfl⟩
      · rw [Parser.foresee, hrun] at h
        cases h
  | ok x =>
      obtain ⟨a, v⟩ := x
      refine ⟨fun b u h => ?_, fun e h => ?_⟩
      · rw [Parser.foresee, hrun] at h
        cases h
        rw [Parser.foresee, (hok _ _ hrun).1]
        exact ⟨rfl, le_rfl⟩
      · rw [Parser.foresee, hrun] at h
        cases h

/-! ### Loops -/

theorem mirrors_repeatWithin {f : α → β} {step : α → Parser (α × Bool)}
    {step' : β → Parser (β × Bool)}
    (hstep : ∀ a, Mirrors φ n (Prod.map f id) (step a) (step' (f a))) (limit : Nat) (a : α) :
    Mirrors φ n f (repeatWithin step limit a) (repeatWithin step' limit (f a)) := by
  induction limit generalizing a with
  | zero => exact mirrors_fail
  | succ limit ih =>
      refine (hstep a).bind fun x => ?_
      obtain ⟨b, more⟩ := x
      exact (ih b).ite (mirrors_pure f b)

theorem mirrors_iterate {f : α → β} {step : α → Parser (α × Bool)} {step' : β → Parser (β × Bool)}
    (hstep : ∀ a, Mirrors φ n (Prod.map f id) (step a) (step' (f a))) (a : α) :
    Mirrors φ n f (iterate step a) (iterate step' (f a)) := by
  intro t ht
  have h := mirrors_repeatWithin hstep (t.ahead.length + 1) a t ht
  have hrun : iterate step' (f a) (φ.tokens t) =
      repeatWithin step' (t.ahead.length + 1) (f a) (φ.tokens t) := by
    show repeatWithin step' ((t.ahead.map φ.lexed).length + 1) (f a) (φ.tokens t) = _
    rw [List.length_map]
  rw [hrun]
  exact h

section
variable {ps qs : List (Parser (List Element))} {p q : Parser (List Element)} {c c' : Parser Bool}

theorem Mirrors.many (hc : Mirrors φ n id c c') (hp : Mirrors φ n φ.elements p q) :
    Mirrors φ n φ.elements (manyWhile c p) (manyWhile c' q) := by
  refine mirrors_iterate (fun done => ?_) []
  refine hc.cond (hp.bind fun next => ?_) (mirrors_pure _ (done, false))
  rw [← φ.elements_append]
  exact mirrors_pure _ (done ++ next, true)

theorem Mirrors.optional (hc : Mirrors φ n id c c') (hp : Mirrors φ n φ.elements p q) :
    Mirrors φ n φ.elements (optional c p) (optional c' q) :=
  hc.cond hp (mirrors_pure φ.elements [])

theorem Mirrors.one {p q : Parser Node} (hp : Mirrors φ n φ.node p q) :
    Mirrors φ n φ.elements (one p) (one q) :=
  hp.bind fun x => mirrors_pure φ.elements [.node x]

theorem Mirrors.tok {p q : Parser Token} (hp : Mirrors φ n φ.token p q) :
    Mirrors φ n φ.elements (tok p) (tok q) :=
  hp.bind fun t => mirrors_pure φ.elements [.token t]

theorem Takes.tok {p : Parser Token} (hp : Takes p) : Takes (tok p) := by
  intro t es u h
  obtain ⟨a, v, ha, h⟩ := bind_run.1 h
  obtain ⟨_, rfl⟩ := pure_run.1 h
  exact hp ha

/-- Parts that mirror each other one by one; behind one that takes a token there are fewer tokens.
-/
inductive MirrorsAll (φ : Relabelling) : Nat → List (Parser (List Element)) →
    List (Parser (List Element)) → Prop where
  | nil {n : Nat} : MirrorsAll φ n [] []
  | cons {n : Nat} {p q : Parser (List Element)} {ps qs : List (Parser (List Element))}
      (h : Mirrors φ n φ.elements p q) (hs : MirrorsAll φ n ps qs) :
      MirrorsAll φ n (p :: ps) (q :: qs)
  | takes {n : Nat} {p q : Parser (List Element)} {ps qs : List (Parser (List Element))}
      (h : Mirrors φ (n + 1) φ.elements p q) (htakes : Takes p) (hs : MirrorsAll φ n ps qs) :
      MirrorsAll φ (n + 1) (p :: ps) (q :: qs)

theorem MirrorsAll.parts (h : MirrorsAll φ n ps qs) :
    Mirrors φ n φ.elements (parts ps) (parts qs) := by
  induction h with
  | nil => exact mirrors_pure φ.elements []
  | cons hp _ ih =>
      refine hp.bind fun first => ih.bind fun others => ?_
      rw [← φ.elements_append]
      exact mirrors_pure φ.elements (first ++ others)
  | takes hp htakes _ ih =>
      refine hp.bind_takes htakes fun first => ih.bind fun others => ?_
      rw [← φ.elements_append]
      exact mirrors_pure φ.elements (first ++ others)

theorem mirrors_hoisted (kind : Tree.Kind) (es : List Element) :
    Mirrors φ n φ.node (pure (Node.hoisted kind es)) (pure (Node.hoisted kind (φ.elements es))) := by
  rw [← φ.node_hoisted]
  exact mirrors_pure φ.node (Node.hoisted kind es)

theorem MirrorsAll.build (h : MirrorsAll φ n ps qs) (kind : Kind) :
    Mirrors φ n φ.node (build kind ps) (build kind qs) :=
  h.parts.bind fun children => mirrors_hoisted (.java kind) children

theorem Mirrors.round {p q : Parser Node} (hp : Mirrors φ n φ.node p q) (more : Bool) :
    Mirrors φ n (Prod.map φ.node id) (do return (← p, more)) (do return (← q, more)) :=
  hp.bind fun x => mirrors_pure (Prod.map φ.node id) (x, more)

end

/-! ### Lists -/

section
variable {item item' : Parser Node} {stop stop' : Parser Bool} (delimiter : Delimiter)

theorem mirrors_itemStep (hdelimiter : φ.Ignores (isSign · delimiter.text))
    (hstop : Mirrors φ n id stop stop') (hitem : Mirrors φ n φ.node item item')
    (done : List (Node × Option Token)) :
    Mirrors φ n (Prod.map (List.map φ.pair) id) (itemStep delimiter stop item done)
      (itemStep delimiter stop' item' (done.map φ.pair)) := by
  refine hstop.cond (mirrors_pure _ (done, false)) (hitem.bind fun x => ?_)
  refine (mirrors_test hdelimiter).cond ?_ ?_
  · refine (mirrors_takeIf hdelimiter).bind fun t => ?_
    have hmap : (done.map φ.pair ++ [(φ.node x, some (φ.token t))], true) =
        Prod.map (List.map φ.pair) id (done ++ [(x, some t)], true) := by
      simp [Relabelling.pair]
    rw [hmap]
    exact mirrors_pure _ _
  · have hmap : (done.map φ.pair ++ [(φ.node x, none)], false) =
        Prod.map (List.map φ.pair) id (done ++ [(x, none)], false) := by
      simp [Relabelling.pair]
    rw [hmap]
    exact mirrors_pure _ _

theorem mirrors_separated (hdelimiter : φ.Ignores (isSign · delimiter.text))
    (hstop : Mirrors φ n id stop stop') (hitem : Mirrors φ n φ.node item item') :
    Mirrors φ n (List.map φ.node) (separated delimiter stop item)
      (separated delimiter stop' item') := by
  refine (mirrors_iterate (mirrors_itemStep delimiter hdelimiter hstop hitem) []).bind fun items => ?_
  rw [← φ.map_withSeparators]
  exact mirrors_pure (List.map φ.node) (withSeparators delimiter items)

end

end Parser

end Codemod.Java
