import Codemod.Proofs.Java.Growth

/-!
Lists of items with separators. The separators are taken from the text and kept as markers; the
layout of the list puts each of them back in its place.
-/

namespace Codemod.Java

open Codemod.Tree

/-- The tokens of items, each with the separator behind it. -/
def pairLexemes (pairs : List (Node × Option Token)) : List Token :=
  pairs.flatMap fun x => x.1.lexemes ++ x.2.toList

/-- What an item is hangs neither on its markers nor on the trivia in front of it. -/
structure Stable (K : Node → Prop) : Prop where
  marked : ∀ {n : Node} (markers : Markers), K n → K { n with markers }
  led : ∀ {n : Node} (lead : String), K n → K { n with lead }

theorem Stable.of_kind (K : Tree.Kind → Prop) : Stable fun n => K n.kind :=
  ⟨fun _ h => h, fun _ h => h⟩

theorem Stable.endsWith {K : Tree.Kind → Prop} {p : Token → Bool}
    (hp : ∀ (t : Token) (lead : String), p { t with lead } = p t) :
    Stable fun n => K n.kind ∧ EndsWith p n :=
  ⟨fun markers h => ⟨h.1, h.2.with_markers markers⟩, fun lead h => ⟨h.1, h.2.with_lead hp lead⟩⟩

/-- An item of a list as its parser leaves it. -/
structure Item (K : Node → Prop) (n : Node) : Prop where
  shaped : n.Everywhere Shaped
  unmarked : n.markers = []
  item : K n

/-- An item with a separator behind it. -/
structure Followed (separator : Delimiter) (K : Node → Prop) (x : Node × Option Token) :
    Prop where
  item : Item K x.1
  separator : ∃ lead, x.2 = some ⟨.punct, lead, separator.text⟩

/-- Items with a separator behind each but the last, which may have one too. -/
inductive Paired (separator : Delimiter) (K : Node → Prop) :
    List (Node × Option Token) → Prop where
  | followed {pairs : List (Node × Option Token)} (h : ∀ x ∈ pairs, Followed separator K x) :
      Paired separator K pairs
  | ended {pairs : List (Node × Option Token)} {n : Node}
      (h : ∀ x ∈ pairs, Followed separator K x) (hn : Item K n) :
      Paired separator K (pairs ++ [(n, none)])

/-- The items of a list, with the lexemes that the layout gives it. -/
structure Listed (start : Tokens) (separator : Delimiter) (closer : Option Delimiter)
    (K : Node → Prop) (items : List Node) (finish : Tokens) : Prop where
  passes : start.Passes (Node.lexemesIn (.separated separator closer) (items.map .node)) finish
  separated : Separated separator closer items
  shaped : ∀ n ∈ items, n.Everywhere Shaped
  item : ∀ n ∈ items, K n

section
variable {separator : Delimiter} {K : Node → Prop}

theorem lexemes_markers (n : Node) (markers : Markers) :
    ({ n with markers } : Node).lexemes = n.lexemes := by
  cases n
  rfl

theorem paired_tail {x : Node × Option Token} {pairs : List (Node × Option Token)}
    (h : Paired separator K (x :: pairs)) :
    (x = (x.1, none) ∧ pairs = [] ∧ Item K x.1) ∨
      (Followed separator K x ∧ Paired separator K pairs) := by
  generalize hall : x :: pairs = all at h
  cases h with
  | followed h =>
      subst hall
      exact .inr ⟨h x (by simp), .followed fun y hy => h y (List.mem_cons_of_mem x hy)⟩
  | @ended front n h hn =>
      cases front with
      | nil =>
          cases hall
          exact .inl ⟨rfl, rfl, hn⟩
      | cons y front =>
          cases hall
          exact .inr ⟨h x (by simp), .ended (fun y hy => h y (List.mem_cons_of_mem x hy)) hn⟩

theorem withSeparators_ne_nil (separator : Delimiter) (x : Node × Option Token)
    (pairs : List (Node × Option Token)) : withSeparators separator (x :: pairs) ≠ [] := by
  obtain ⟨item, _ | token⟩ := x <;> cases pairs <;> simp [withSeparators]

theorem lexemesIn_last (closer : Option Delimiter) (n : Node) :
    Node.lexemesIn (.separated separator closer) [.node n] =
      n.lexemes ++ tokensBehind n.markers separator closer := by
  simp [Node.lexemesIn, Element.lexemes, Layout.delimiterTokens]

theorem lexemesIn_item_cons (closer : Option Delimiter) (n : Node) {items : List Node}
    (h : items ≠ []) :
    Node.lexemesIn (.separated separator closer) ((n :: items).map .node) =
      n.lexemes ++ separatorToken n.markers separator ::
        Node.lexemesIn (.separated separator closer) (items.map .node) := by
  obtain ⟨m, items, rfl⟩ := List.exists_cons_of_ne_nil h
  simp [Node.lexemesIn, Element.lexemes, Layout.delimiterTokens, Element.node?]

theorem separated_cons {closer : Option Delimiter} {item : Node} {items : List Node}
    (before : String) (h : item.markers = [⟨.separator, before⟩])
    (hrest : Separated separator closer items) (hne : items ≠ []) :
    Separated separator closer (item :: items) := by
  obtain ⟨m, items, rfl⟩ := List.exists_cons_of_ne_nil hne
  exact .cons before h hrest

theorem listed_withSeparators {pairs : List (Node × Option Token)} (hK : Stable K)
    (h : Paired separator K pairs) :
    Node.lexemesIn (.separated separator none)
        ((withSeparators separator pairs).map .node) = pairLexemes pairs ∧
      Separated separator none (withSeparators separator pairs) ∧
      ∀ n ∈ withSeparators separator pairs, n.Everywhere Shaped ∧ K n := by
  induction pairs with
  | nil => exact ⟨rfl, .nil, nofun⟩
  | cons x pairs ih =>
      obtain ⟨n, token?⟩ := x
      rcases paired_tail h with ⟨hx, rfl, hn⟩ | ⟨⟨hn, lead, htoken⟩, hpairs⟩
      all_goals
        have hunmarked : n.markers = [] := hn.unmarked
      · cases hx
        refine ⟨?_, .last (hunmarked ▸ .bare), ?_⟩
        · simp [withSeparators, lexemesIn_last, pairLexemes, hunmarked, tokensBehind,
            markedTokens, Markers.get?]
        · rintro m (_ | ⟨_, ⟨⟩⟩)
          exact ⟨hn.shaped, hn.item⟩
      · cases htoken
        obtain ⟨hlexemes, hseparated, hshaped⟩ := ih hpairs
        cases pairs with
        | nil =>
            have hmarkers : (closedBy n separator ⟨.punct, lead, separator.text⟩).markers =
                [⟨separator.marker, lead⟩] := by
              simp [closedBy, hunmarked, Markers.put, Markers.erase]
            refine ⟨?_, .last (hmarkers ▸ .trailing lead), ?_⟩
            · simp only [withSeparators, List.map_cons, List.map_nil, lexemesIn_last, hmarkers]
              simp [pairLexemes, tokensBehind, markedTokens, Markers.get?, Marker.token,
                closedBy, lexemes_markers]
            · rintro m (_ | ⟨_, ⟨⟩⟩)
              exact ⟨everywhere_markers _ hn.shaped, hK.marked _ hn.item⟩
        | cons y pairs =>
            have hne := withSeparators_ne_nil separator y pairs
            have hmarkers : (spacedBy n ⟨.punct, lead, separator.text⟩).markers =
                [⟨.separator, lead⟩] := by
              simp [spacedBy, hunmarked, Markers.put, Markers.erase]
            have hcons : withSeparators separator
                ((n, some ⟨.punct, lead, separator.text⟩) :: y :: pairs) =
                spacedBy n ⟨.punct, lead, separator.text⟩ ::
                  withSeparators separator (y :: pairs) := by
              rw [withSeparators]
              simp
            rw [hcons]
            refine ⟨?_, separated_cons lead hmarkers hseparated hne, ?_⟩
            · rw [lexemesIn_item_cons none _ hne, hlexemes, hmarkers]
              simp [pairLexemes, separatorToken, Markers.get?, Marker.token, spacedBy,
                lexemes_markers]
            · intro k hk
              rcases List.mem_cons.1 hk with rfl | hk
              · exact ⟨everywhere_markers _ hn.shaped, hK.marked _ hn.item⟩
              · exact hshaped k hk

theorem separated_of_none {closer : Option Delimiter} {items : List Node}
    (h : Separated separator none items) : Separated separator closer items := by
  induction h with
  | nil => exact .nil
  | @last item h =>
      refine .last ?_
      generalize item.markers = markers at h
      cases h with
      | bare => exact .bare
      | trailing before => exact .trailing before
  | cons before h _ ih => exact .cons before h ih

end

/-! ### Lists of constants -/

theorem lexemesIn_unclosed {items : List Node} (h : Separated .comma none items) :
    Node.lexemesIn (.separated .comma (some .semicolon)) (items.map .node) =
      Node.lexemesIn (.separated .comma none) (items.map .node) := by
  induction h with
  | nil => rfl
  | @last item h =>
      rw [List.map_singleton, lexemesIn_last, lexemesIn_last]
      generalize item.markers = markers at h
      cases h <;> rfl
  | @cons item next rest before h hrest ih =>
      rw [lexemesIn_item_cons _ _ (List.cons_ne_nil next rest), ih,
        lexemesIn_item_cons _ _ (List.cons_ne_nil next rest)]

theorem lexemesIn_closed {front : List Node} {last : Node} (lead : String)
    (h : Separated .comma none (front ++ [last])) :
    let closed := front ++ [closedBy last .semicolon ⟨.punct, lead, ";"⟩]
    Node.lexemesIn (.separated .comma (some .semicolon)) (closed.map .node) =
        Node.lexemesIn (.separated .comma none) ((front ++ [last]).map .node) ++
          [⟨.punct, lead, ";"⟩] ∧
      Separated .comma (some .semicolon) closed := by
  induction front with
  | nil =>
      obtain ⟨kind, before, children, markers, type?⟩ := last
      cases h with
      | last h =>
          simp only [List.nil_append, List.map_singleton, lexemesIn_last, closedBy,
            List.append_assoc]
          cases h with
          | bare => exact ⟨rfl, .last (.closed lead)⟩
          | trailing before => exact ⟨rfl, .last (.both before lead)⟩
  | cons item front ih =>
      generalize hrest : front ++ [last] = rest at h ih
      have hne : rest ≠ [] := by simp [← hrest]
      have hne' : front ++ [closedBy last .semicolon ⟨.punct, lead, ";"⟩] ≠ [] := by simp
      simp only [List.cons_append, hrest] at h ⊢
      cases h with
      | last => exact absurd rfl hne
      | cons before hmarkers hseparated =>
          obtain ⟨hlexemes, hclosed⟩ := ih hseparated
          refine ⟨?_, separated_cons before hmarkers hclosed hne'⟩
          rw [lexemesIn_item_cons _ _ hne', hlexemes, lexemesIn_item_cons _ _ hne]
          simp

/-! ### Parsers of lists -/

namespace Parser

variable {s t u : Tokens}

theorem pairLexemes_snoc (pairs : List (Node × Option Token)) (n : Node) (token? : Option Token) :
    pairLexemes (pairs ++ [(n, token?)]) = pairLexemes pairs ++ (n.lexemes ++ token?.toList) := by
  simp [pairLexemes]

theorem itemStep_run {separator : Delimiter} {stop : Parser Bool} {item : Parser Node}
    {done done' : List (Node × Option Token)} {more : Bool} (hstop : Peeks stop)
    (h : itemStep separator stop item done t = .ok ((done', more), u)) :
    more = false ∧ done' = done ∧ u = t ∨
      ∃ n v, item t = .ok (n, v) ∧
        (more = true ∧ (∃ token, take separator.text v = .ok (token, u) ∧
            done' = done ++ [(n, some token)]) ∨
          more = false ∧ u = v ∧ done' = done ++ [(n, none)]) := by
  obtain ⟨ended, v, hended, h⟩ := bind_run.1 h
  cases hstop hended
  cases ended with
  | true =>
      cases h
      exact .inl ⟨rfl, rfl, rfl⟩
  | false =>
      obtain ⟨n, v, hn, h⟩ := bind_run.1 h
      obtain ⟨follows, w, hfollows, h⟩ := bind_run.1 h
      cases peeks_sees hfollows
      refine .inr ⟨n, v, hn, ?_⟩
      cases follows with
      | true =>
          obtain ⟨token, w, htoken, h⟩ := bind_run.1 h
          cases h
          exact .inl ⟨rfl, token, htoken, rfl⟩
      | false =>
          cases h
          exact .inr ⟨rfl, rfl, rfl⟩

/-- A list of grown items is listed with its separators. -/
theorem listed_of_separated {separator : Delimiter} {stop : Parser Bool} {item : Parser Node}
    {K : Node → Prop} {items : List Node} (hK : Stable K) (hstop : Peeks stop)
    (hitem : Ensures (fun t n u => Grown t n u ∧ K n) item) (ht : t.Genuine)
    (h : separated separator stop item t = .ok (items, u)) :
    Listed t separator none K items u := by
  obtain ⟨pairs, v, hpairs, h⟩ := bind_run.1 h
  cases h
  have hstart : t.Passes (pairLexemes []) t ∧ ∀ x ∈ [], Followed separator K x :=
    ⟨.refl t, nofun⟩
  have hrun : t.Passes (pairLexemes pairs) u ∧ Paired separator K pairs := by
    -- Every item of a round that goes on has a separator behind it; only the last round may
    -- leave one without.
    refine iterate_induct
      (P := fun done v => t.Passes (pairLexemes done) v ∧ ∀ x ∈ done, Followed separator K x)
      (Q := fun done v => t.Passes (pairLexemes done) v ∧ Paired separator K done)
      ?_ ?_ hstart hpairs
    · rintro done v done' w ⟨hpasses, hdone⟩ hstep
      obtain ⟨⟨⟩, _⟩ | ⟨n, x, hn, ⟨_, token, htoken, rfl⟩ | ⟨⟨⟩, _⟩⟩ := itemStep_run hstop hstep
      obtain ⟨hgrown, hkind⟩ := hitem (hpasses.genuine ht) hn
      have hx := hpasses.trans hgrown.passes
      obtain ⟨htaken, heq⟩ := take_passes (hx.genuine ht) htoken (by cases separator <;> decide)
      refine ⟨?_, ?_⟩
      · rw [pairLexemes_snoc, heq, ← List.append_assoc]
        exact hx.trans htaken
      · intro y hy
        rcases List.mem_append.1 hy with hy | hy
        · exact hdone y hy
        · cases List.mem_singleton.1 hy
          exact ⟨⟨hgrown.shaped, hgrown.unmarked, hkind⟩, token.lead, congrArg some heq⟩
    · rintro done v done' w ⟨hpasses, hdone⟩ hstep
      obtain ⟨_, rfl, rfl⟩ | ⟨n, x, hn, ⟨⟨⟩, _⟩ | ⟨_, rfl, rfl⟩⟩ := itemStep_run hstop hstep
      · exact ⟨hpasses, .followed hdone⟩
      · obtain ⟨hgrown, hkind⟩ := hitem (hpasses.genuine ht) hn
        refine ⟨?_, .ended hdone ⟨hgrown.shaped, hgrown.unmarked, hkind⟩⟩
        rw [pairLexemes_snoc]
        simpa using hpasses.trans hgrown.passes
  obtain ⟨hpasses, hpaired⟩ := hrun
  obtain ⟨hlexemes, hseparated, hshaped⟩ := listed_withSeparators hK hpaired
  exact ⟨hlexemes ▸ hpasses, hseparated, fun n hn => (hshaped n hn).1,
    fun n hn => (hshaped n hn).2⟩

theorem grown_listed {k : Kind} {separator : Delimiter} {closer : Option Delimiter}
    (before after : List Token) {items : List Node}
    (hlayout : (Tree.Kind.java k).layout = .separated separator closer)
    (hk : k ≠ .compilationUnit)
    (hpasses : s.Passes
      (before ++ Node.lexemesIn (.separated separator closer) (items.map .node) ++ after) t)
    (hseparated : Separated separator closer items)
    (hshaped : ∀ n ∈ items, n.Everywhere Shaped)
    (hshape : KindShape k (Node.hoisted (.java k)
      (before.map .token ++ items.map .node ++ after.map .token)).children)
    (hclosing : Closing k (Node.hoisted (.java k)
      (before.map .token ++ items.map .node ++ after.map .token)).children) :
    Grown s (Node.hoisted (.java k)
      (before.map .token ++ items.map .node ++ after.map .token)) t := by
  have hnodes : ∀ c, Element.node c ∈
      before.map .token ++ items.map .node ++ after.map .token → c.Everywhere Shaped := by
    intro c hc
    refine hshaped c ?_
    simpa using hc
  refine grown_hoisted ?_ hnodes
    (shaped_hoisted hk (fun c hc => anchored_of_everywhere (hnodes c hc)) ?_ hshape hclosing)
  · rw [hlayout, lexemesIn_append_tokens, lexemesIn_tokens_append]
    exact hpasses
  · rw [hlayout]
    exact ⟨before, after, items, rfl, hseparated⟩

theorem grown_items {k : Kind} {separator : Delimiter} {closer : Option Delimiter}
    {items : List Node} (hlayout : (Tree.Kind.java k).layout = .separated separator closer)
    (hk : k ≠ .compilationUnit)
    (hpasses : s.Passes
      (Node.lexemesIn (.separated separator closer) (items.map .node)) t)
    (hseparated : Separated separator closer items)
    (hshaped : ∀ n ∈ items, n.Everywhere Shaped)
    (hshape : KindShape k (Node.hoisted (.java k) (items.map .node)).children)
    (hclosing : Closing k (Node.hoisted (.java k) (items.map .node)).children) :
    Grown s (Node.hoisted (.java k) (items.map .node)) t := by
  have h := grown_listed (s := s) (t := t) (k := k) [] [] hlayout hk
    (by rwa [List.nil_append, List.append_nil]) hseparated hshaped
    (by rwa [List.map_nil, List.nil_append, List.append_nil])
    (by rwa [List.map_nil, List.nil_append, List.append_nil])
  rwa [List.map_nil, List.nil_append, List.append_nil] at h

theorem commaList_run {item : Parser Node} {es : List Element}
    (h : commaList item t = .ok (es, u)) :
    ∃ items, separated .comma (pure false) item t = .ok (items, u) ∧ es = items.map .node := by
  obtain ⟨items, v, hitems, h⟩ := bind_run.1 h
  cases h
  exact ⟨items, hitems, rfl⟩

theorem grows_keywordList {k : Kind} {keyword : String} {item : Parser Node} {K : Node → Prop}
    (hK : Stable K) (hitem : Ensures (fun t n u => Grown t n u ∧ K n) item)
    (hshape : ∀ (first : Token) (items : List Node), (∀ n ∈ items, K n) →
      KindShape k (.token first :: items.map .node) ∧ Closing k (.token first :: items.map .node))
    (hk : k ≠ .compilationUnit) (hlayout : (Tree.Kind.java k).layout = .separated .comma none) :
    Grows (build k [tok (take keyword), commaList item]) := by
  intro t n u ht h
  obtain ⟨es, hes, rfl⟩ := build_run.1 h
  obtain ⟨first, v, _, htake, hrest, rfl⟩ := parts_tok_run.1 hes
  obtain ⟨_, w, _, hlist, hend, rfl⟩ := parts_cons_run.1 hrest
  obtain ⟨rfl, rfl⟩ := parts_nil_run.1 hend
  obtain ⟨items, hitems, rfl⟩ := commaList_run hlist
  obtain ⟨hpasses, _⟩ := takeIf_passes htake
  have hlisted := listed_of_separated hK peeks_pure hitem (hpasses.genuine ht) hitems
  obtain ⟨hshape, hclosing⟩ := hshape { first with lead := "" } items hlisted.item
  refine grown_listed [first] [] hlayout hk ?_ hlisted.separated hlisted.shaped ?_ ?_
  · rw [List.append_nil]
    exact hpasses.trans hlisted.passes
  · rwa [List.map_nil, List.append_nil]
  · rwa [List.map_nil, List.append_nil]

theorem hoisted_items (k : Kind) {K : Node → Prop} (hK : Stable K) {items : List Node}
    (h : ∀ n ∈ items, K n) : ∃ items' : List Node, (∀ n ∈ items', K n) ∧
      (Node.hoisted (.java k) (items.map .node)).children = items'.map .node := by
  cases items with
  | nil => exact ⟨[], nofun, rfl⟩
  | cons first items =>
      obtain ⟨hfirst, hitems⟩ := List.forall_mem_cons.1 h
      exact ⟨{ first with lead := "" } :: items,
        List.forall_mem_cons.2 ⟨hK.led "" hfirst, hitems⟩, rfl⟩

theorem grows_commaList {k : Kind} {item : Parser Node} {K : Node → Prop}
    (hK : Stable K) (hitem : Ensures (fun t n u => Grown t n u ∧ K n) item)
    (hshape : ∀ items : List Node, (∀ n ∈ items, K n) →
      KindShape k (items.map .node) ∧ Closing k (items.map .node))
    (hk : k ≠ .compilationUnit) (hlayout : (Tree.Kind.java k).layout = .separated .comma none) :
    Grows (build k [commaList item]) := by
  intro t n u ht h
  obtain ⟨es, hes, rfl⟩ := build_run.1 h
  obtain ⟨_, v, _, hlist, hend, rfl⟩ := parts_cons_run.1 hes
  obtain ⟨rfl, rfl⟩ := parts_nil_run.1 hend
  obtain ⟨items, hitems, rfl⟩ := commaList_run hlist
  have hlisted := listed_of_separated hK peeks_pure hitem ht hitems
  rw [List.append_nil]
  obtain ⟨items', hitems', heq⟩ := hoisted_items k hK hlisted.item
  obtain ⟨hshape, hclosing⟩ := hshape items' hitems'
  exact grown_items hlayout hk hlisted.passes hlisted.separated hlisted.shaped (heq ▸ hshape)
    (heq ▸ hclosing)

/-- A list between two signs is grown. -/
theorem grows_delimited {k : Kind} {opening closing : String} {separator : Delimiter}
    {item : Parser Node} {K : Node → Prop} (hK : Stable K)
    (hitem : Ensures (fun t n u => Grown t n u ∧ K n) item)
    (hshape : ∀ (children : List Element) (items : List Node), (∀ n ∈ items, K n) →
      Enclosed opening closing children (items.map .node) →
        KindShape k children ∧ Closing k children)
    (hlayout : (Tree.Kind.java k).layout = .separated separator none)
    (hk : k ≠ .compilationUnit) (hopening : isKeyword opening = false)
    (hclosing : isKeyword closing = false) :
    Grows (delimited k opening closing separator item) := by
  intro t n u ht h
  obtain ⟨es, hes, rfl⟩ := build_run.1 h
  obtain ⟨first, v, _, htake, hmiddle, rfl⟩ := parts_tok_run.1 hes
  obtain ⟨_, w, _, hmembers, hrest, rfl⟩ := parts_cons_run.1 hmiddle
  obtain ⟨last, x, _, htake', hend, rfl⟩ := parts_tok_run.1 hrest
  obtain ⟨rfl, rfl⟩ := parts_nil_run.1 hend
  obtain ⟨items, w', hitems, h⟩ := bind_run.1 hmembers
  cases h
  obtain ⟨hfirst, hopens⟩ := take_passes ht htake hopening
  have hlisted := listed_of_separated hK peeks_sees hitem (hfirst.genuine ht) hitems
  have hmid := hfirst.trans hlisted.passes
  obtain ⟨hlast, hcloses⟩ := take_passes (hmid.genuine ht) htake' hclosing
  rw [hopens, hcloses]
  obtain ⟨hshape, hclosing⟩ := hshape _ items hlisted.item ⟨last.lead, rfl⟩
  exact grown_listed [⟨.punct, first.lead, opening⟩] [⟨.punct, last.lead, closing⟩] hlayout
    hk (hmid.trans hlast) hlisted.separated hlisted.shaped hshape hclosing

theorem grows_delimited_plain {k : Kind} {opening closing : String} {separator : Delimiter}
    {item : Parser Node} (hitem : Grows item)
    (hk : k.isPlain = true) (hlayout : (Tree.Kind.java k).layout = .separated separator none)
    (hopening : isKeyword opening = false) (hclosing : isKeyword closing = false) :
    Grows (delimited k opening closing separator item) :=
  grows_delimited (.of_kind fun _ => True) (fun ht hn => ⟨hitem ht hn, trivial⟩)
    (fun children _ _ _ => ⟨shape_of_isPlain hk children, closing_of_isPlain hk children⟩) hlayout
    (inner_of_isPlain hk) hopening hclosing

/-! ### Bodies -/

theorem parts_append_run (ps qs : List (Parser (List Element))) {es : List Element} :
    parts (ps ++ qs) t = .ok (es, u) ↔
      ∃ first v others, parts ps t = .ok (first, v) ∧ parts qs v = .ok (others, u) ∧
        es = first ++ others := by
  induction ps generalizing t es with
  | nil =>
      constructor
      · intro h
        exact ⟨[], t, es, rfl, h, rfl⟩
      · rintro ⟨first, v, others, hfirst, hothers, rfl⟩
        cases hfirst
        exact hothers
  | cons p ps ih =>
      simp only [List.cons_append, parts_cons_run, ih]
      constructor
      · rintro ⟨first, v, _, hfirst, ⟨middle, w, others, hmiddle, hothers, rfl⟩, rfl⟩
        exact ⟨first ++ middle, w, others, ⟨first, v, middle, hfirst, hmiddle, rfl⟩, hothers,
          (List.append_assoc ..).symm⟩
      · rintro ⟨_, w, others, ⟨first, v, middle, hfirst, hmiddle, rfl⟩, hothers, rfl⟩
        exact ⟨first, v, middle ++ others, hfirst, ⟨middle, w, others, hmiddle, hothers, rfl⟩,
          List.append_assoc ..⟩

theorem yieldsAll_append {ps qs : List (Parser (List Element))} (hp : YieldsAll ps)
    (hq : YieldsAll qs) : YieldsAll (ps ++ qs) := by
  induction hp with
  | nil => exact hq
  | cons h _ ih => exact .cons h ih

/-- Members between two signs are grown. -/
theorem grows_enclosed {k : Kind} {opening closing : String}
    (inner : List (Parser (List Element))) (hinner : YieldsAll inner)
    (hshape : ∀ {t u : Tokens} {members : List Element}, t.Genuine →
      parts inner t = .ok (members, u) → ∀ children, Enclosed opening closing children members →
        KindShape k children ∧ Closing k children)
    (hlayout : (Tree.Kind.java k).layout = .sequence) (hk : k ≠ .compilationUnit)
    (hopening : isKeyword opening = false) (hclosing : isKeyword closing = false) :
    Grows (build k (tok (take opening) :: (inner ++ [tok (take closing)]))) := by
  intro t n u ht h
  obtain ⟨es, hes, rfl⟩ := build_run.1 h
  have hgrown := yields_parts
    (.cons yields_tok (yieldsAll_append hinner (.cons yields_tok .nil))) ht hes
  obtain ⟨first, v, _, htake, hrest, rfl⟩ := parts_tok_run.1 hes
  obtain ⟨members, w, _, hmembers, hlast, rfl⟩ := (parts_append_run inner _).1 hrest
  obtain ⟨last, x, _, htake', hend, rfl⟩ := parts_tok_run.1 hlast
  obtain ⟨rfl, rfl⟩ := parts_nil_run.1 hend
  obtain ⟨hfirst, hopens⟩ := take_passes ht htake hopening
  have hw := (yields_parts hinner (hfirst.genuine ht) hmembers).genuine (hfirst.genuine ht)
  obtain ⟨_, hcloses⟩ := take_passes hw htake' hclosing
  obtain ⟨hshape, hclosing⟩ := hshape (hfirst.genuine ht) hmembers
    (Node.hoisted (.java k) (.token first :: (members ++ [.token last]))).children ⟨last.lead, by
      rw [hopens, hcloses]
      rfl⟩
  exact hgrown.hoisted_of_shape hlayout hk hshape hclosing

end Parser

end Codemod.Java
