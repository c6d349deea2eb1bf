import Codemod.Proofs.Java.Sifted.Parsers

/-!
Lists with separators in a sifted text: the words that the items and the delimiters keep, and the
parsers of the lists that lose nothing of their own.
-/

namespace Codemod.Recipes.Semicolons.Sifted

open Codemod.Tree Codemod.Java Codemod.Java.Parser

/-! ### Words of lists -/

/-- The words of a child that is no token that drops out. -/
def keptUnless (drops : Token → Bool) : Element → List Word
  | .token t => if drops t then [] else [t.word]
  | .node n => keptNode n

/-- The words of children in a layout, without the delimiters at its end and the tokens that drop out. -/
def keptBetween (layout : Layout) (drops : Token → Bool) : List Element → List Word
  | [] => []
  | e :: es =>
      keptUnless drops e ++ ((layout.delimiterTokens e es).filter fun t =>
        !(!(es.any fun e => e.node?.isSome) && drops t)).map Token.word ++
      keptBetween layout drops es

theorem judgeIn_between {kind : Tree.Kind} {ends : Bool} (hbody : isBodyKind kind = false)
    (es : List Element) :
    kept (judgeIn kind ends es) = keptBetween kind.layout (isTerminator kind ends) es := by
  have henum : (kind == .java .enumBody) = false := by
    rw [isBodyKind, Bool.or_eq_false_iff] at hbody
    exact hbody.2
  induction es with
  | nil => rfl
  | cons e es ih =>
      rw [judgeIn, kept_append, kept_append, ih, keptBetween]
      congr 2
      · cases e with
        | token t =>
            rw [judgeChild]
            cases hterminator : isTerminator kind ends t <;> simp [keptUnless, hterminator, kept]
        | node n => rw [judgeChild, hbody, henum]; rfl
      · rw [kept, List.filter_map, List.map_map]
        rfl

/-- The words of items, each with the separator behind it. -/
def keptPairs (pairs : List (Node × Option Token)) : List Word :=
  pairs.flatMap fun x => keptNode x.1 ++ x.2.toList.map Token.word

/-- Items that are in no list yet, each with a separator behind it. -/
def Followed (separator : Delimiter) (pairs : List (Node × Option Token)) : Prop :=
  ∀ x ∈ pairs, x.1.markers = [] ∧ ∃ lead, x.2 = some ⟨.punct, lead, separator.text⟩

/-- An item that is in no list yet, with a separator behind it if there is one. -/
def Apart (separator : Delimiter) (x : Node × Option Token) : Prop :=
  x.1.markers = [] ∧ ∀ t ∈ x.2, ∃ lead, t = ⟨.punct, lead, separator.text⟩

/-- Items that are in no list yet with a separator behind each but the last, which may have one too. -/
def Paired (separator : Delimiter) (pairs : List (Node × Option Token)) : Prop :=
  pairs = [] ∨ ∃ front x, pairs = front ++ [x] ∧ Followed separator front ∧ Apart separator x

theorem Followed.paired {separator : Delimiter} {pairs : List (Node × Option Token)}
    (h : Followed separator pairs) : Paired separator pairs := by
  obtain rfl | ⟨front, x, rfl⟩ := List.eq_nil_or_concat pairs
  · exact .inl rfl
  · rw [List.concat_eq_append] at h
    obtain ⟨hn, lead, htoken⟩ := h x (by simp)
    exact .inr ⟨front, x, List.concat_eq_append, fun y hy => h y (List.mem_append_left _ hy), hn,
      fun t ht => ⟨lead, Option.some.inj (ht.symm.trans htoken)⟩⟩

/-- The items and the words that they keep together with their separators. -/
def KeepsItems (separator : Delimiter) (items : List Node) (ws : List Word) : Prop :=
  ∃ pairs, Paired separator pairs ∧ items = withSeparators separator pairs ∧ ws = keptPairs pairs

/-- An item that others follow, with the spacing in front of its separator. -/
def spacedPair (x : Node × Option Token) : Node :=
  x.2.elim x.1 (spacedBy x.1)

/-- The last item with its separator, if it has one. -/
def lastPair (separator : Delimiter) (x : Node × Option Token) : Node :=
  x.2.elim x.1 (closedBy x.1 separator)

theorem withSeparators_concat (separator : Delimiter) (front : List (Node × Option Token))
    (x : Node × Option Token) :
    withSeparators separator (front ++ [x]) = front.map spacedPair ++ [lastPair separator x] := by
  induction front with
  | nil =>
      obtain ⟨n, _ | token⟩ := x <;> rfl
  | cons y front ih =>
      obtain ⟨m, _ | token⟩ := y
      · exact congrArg (m :: ·) ih
      · obtain ⟨z, rest, hrest⟩ := List.exists_cons_of_ne_nil (show front ++ [x] ≠ [] by simp)
        rw [List.cons_append, hrest, withSeparators, ← hrest, ih]
        · rfl
        · exact List.cons_ne_nil z rest

theorem any_node_tokens (ts : List Token) :
    ((ts.map Element.token).any fun e => e.node?.isSome) = false := by
  simp [Element.node?]

theorem keptNode_marked (n : Node) (markers : Markers) : keptNode { n with markers } = keptNode n := by
  rw [keptNode, keptNode, judge_eq, judge_eq]

theorem keptBetween_tokens (layout : Layout) (drops : Token → Bool) (ts : List Token) :
    keptBetween layout drops (ts.map .token) = (ts.filter fun t => !drops t).map Token.word := by
  induction ts with
  | nil => rfl
  | cons t ts ih =>
      have hdelimiters : layout.delimiterTokens (.token t) (ts.map .token) = [] := by cases layout <;> rfl
      rw [List.map_cons, keptBetween, hdelimiters, ih, keptUnless]
      cases hdrops : drops t <;> simp [hdrops]

theorem keptBetween_token {layout : Layout} {drops : Token → Bool} {t : Token}
    (hdrops : drops t = false) (es : List Element) :
    keptBetween layout drops (.token t :: es) = t.word :: keptBetween layout drops es := by
  have hdelimiters : layout.delimiterTokens (.token t) es = [] := by cases layout <;> rfl
  rw [keptBetween, hdelimiters]
  simp [keptUnless, hdrops]

theorem keptPairs_concat (pairs : List (Node × Option Token)) (n : Node) (token? : Option Token) :
    keptPairs (pairs ++ [(n, token?)]) =
      keptPairs pairs ++ (keptNode n ++ token?.toList.map Token.word) := by
  simp [keptPairs]

section
variable {separator : Delimiter} {closer : Option Delimiter} {drops : Token → Bool}

theorem keptBetween_front {front : List (Node × Option Token)} (h : Followed separator front)
    {es : List Element} (hes : (es.any fun e => e.node?.isSome) = true) :
    keptBetween (.separated separator closer) drops ((front.map spacedPair).map .node ++ es) =
      keptPairs front ++ keptBetween (.separated separator closer) drops es := by
  induction front with
  | nil => rfl
  | cons x front ih =>
      obtain ⟨n, token?⟩ := x
      obtain ⟨⟨-, lead, htoken⟩, hothers⟩ := List.forall_mem_cons.1 h
      cases htoken
      have hmore :
          (((front.map spacedPair).map Element.node ++ es).any fun e => e.node?.isSome) = true := by
        rw [List.any_append, hes, Bool.or_true]
      have hword : ∀ markers, (separatorToken markers separator).word = (.punct, separator.text) := by
        intro markers
        rw [separatorToken]
        split <;> rfl
      have hpairs : keptPairs ((n, some ⟨.punct, lead, separator.text⟩) :: front) =
          keptNode n ++ (.punct, separator.text) :: keptPairs front := by
        simp [keptPairs, Token.word]
      rw [List.map_cons, List.map_cons, List.cons_append, keptBetween, ih hothers,
        Layout.delimiterTokens, hmore, hpairs]
      simp [keptUnless, spacedPair, spacedBy, keptNode_marked, hword]

theorem keptBetween_last (n : Node) (ts : List Token) :
    keptBetween (.separated separator closer) drops (.node n :: ts.map .token) =
      keptNode n ++ ((tokensBehind n.markers separator closer).filter fun t => !drops t).map Token.word ++
        (ts.filter fun t => !drops t).map Token.word := by
  rw [keptBetween, Layout.delimiterTokens, any_node_tokens, keptBetween_tokens]
  simp [keptUnless]

theorem keptBetween_concat {front : List (Node × Option Token)} (h : Followed separator front)
    (n : Node) (ts : List Token) :
    keptBetween (.separated separator closer) drops
        ((front.map spacedPair ++ [n]).map .node ++ ts.map .token) =
      keptPairs front ++ (keptNode n ++
        ((tokensBehind n.markers separator closer).filter fun t => !drops t).map Token.word) ++
          (ts.filter fun t => !drops t).map Token.word := by
  rw [List.map_append, List.append_assoc, keptBetween_front h (by simp [Element.node?]),
    List.map_singleton, List.singleton_append, keptBetween_last]
  simp only [List.append_assoc]

theorem tokensBehind_lastPair {x : Node × Option Token} (h : Apart separator x)
    (hcloser : closer ≠ some separator) :
    tokensBehind (lastPair separator x).markers separator closer = x.2.toList := by
  obtain ⟨n, _ | t⟩ := x
  all_goals obtain ⟨hn, htoken⟩ := h
  · have hnone : tokensBehind [] separator closer = [] := by cases closer <;> rfl
    exact (congrArg (tokensBehind · separator closer) hn).trans hnone
  · obtain ⟨lead, rfl⟩ := htoken t rfl
    have hmarkers : (closedBy n separator ⟨.punct, lead, separator.text⟩).markers =
        [⟨separator.marker, lead⟩] := by
      simp [closedBy, show n.markers = [] from hn, Markers.put, Markers.erase]
    show tokensBehind (closedBy n separator _).markers separator closer = _
    rw [hmarkers]
    cases closer with
    | none => simp [tokensBehind, markedTokens, Markers.get?, Marker.token]
    | some closer =>
        cases separator <;> cases closer <;> first | rfl | exact absurd rfl hcloser

theorem keptNode_lastPair (x : Node × Option Token) : keptNode (lastPair separator x) = keptNode x.1 := by
  obtain ⟨n, _ | t⟩ := x
  · rfl
  · exact keptNode_marked n _

theorem keptBetween_withSeparators {pairs : List (Node × Option Token)} (h : Paired separator pairs)
    (hcloser : closer ≠ some separator) (hdrops : ∀ t, drops t = false) (ts : List Token) :
    keptBetween (.separated separator closer) drops
        ((withSeparators separator pairs).map .node ++ ts.map .token) =
      keptPairs pairs ++ ts.map Token.word := by
  have hall : ∀ ts : List Token, (ts.filter fun t => !drops t) = ts := fun ts => by simp [hdrops]
  obtain rfl | ⟨front, ⟨n, token?⟩, rfl, hfront, hx⟩ := h
  · exact (keptBetween_tokens _ _ ts).trans (by rw [hall]; rfl)
  · rw [withSeparators_concat, keptBetween_concat hfront, hall, hall, tokensBehind_lastPair hx hcloser,
      keptNode_lastPair, keptPairs_concat]

end

/-! ### Parsers of lists -/

section
variable {ι : Type} {L M : Level} {stop : Parser Bool} {item : Parser Node}
  {item' : ι → Parser Node} {delimiter : Delimiter}

theorem follows_separator (delimiter : Delimiter) :
    Follows .strict (fun _ => true) []
      (fun token ws => (∃ lead, token = ⟨.punct, lead, delimiter.text⟩) ∧ KeepsToken token ws) anything
      (take delimiter.text) fun _ : ι => take delimiter.text := by
  refine ⟨fun {t token u} ht hrun => ?_⟩
  obtain ⟨G, ws, hws, hrest⟩ := (follows_take (ι := ι) delimiter.text).run ht hrun
  have htoken := (take_passes ht hrun (by cases delimiter <;> decide)).2
  exact ⟨G, ws, ⟨⟨_, htoken⟩, hws⟩, hrest⟩

theorem sameEmpty_concat {α β : Type} (xs : List α) (ys : List β) (x : α) (y : β) :
    sameEmpty (xs ++ [x]) (ys ++ [y]) := by
  simp [sameEmpty]

theorem follows_itemStep (hstop : Blind L stop) (hsees : Blind L (sees delimiter.text))
    (hitem : FollowsNode M item item') (hle : L.le M = true)
    (hstrict : L.le .strict = true) {done : List (Node × Option Token)} {ws : List Word}
    (hdone : Followed delimiter done ∧ ws = keptPairs done) :
    Follows L Prod.snd ws
      (KeepsRound (fun pairs vs => Followed delimiter pairs ∧ vs = keptPairs pairs)
        fun pairs vs => Paired delimiter pairs ∧ vs = keptPairs pairs) (SameRound sameEmpty)
      (itemStep delimiter stop item done)
      fun x : ι × { pairs : List (Node × Option Token) // sameEmpty done pairs } =>
        itemStep delimiter stop (item' x.1) x.2.1 := by
  obtain ⟨hfollowed, rfl⟩ := hdone
  refine Follows.cond_at hstop (.inl (Level.le_refl L)) (follows_pure rfl
    ⟨hfollowed.paired, rfl⟩ fun x => ⟨x.2.2, rfl⟩) ?_
  refine Follows.bind ((hitem.weaken hle fun _ => id).reindex Prod.fst |>.behind (keptPairs done))
    (m := Prod.snd) ?_ (.inl (Level.le_refl L)) fun _ _ _ => rfl
  rintro n _ ⟨_, ⟨hn, rfl⟩, rfl⟩
  refine Follows.cond_at hsees (.inl (Level.le_refl L)) ?_ ?_
  · refine Follows.bind ((follows_separator delimiter).behind _) (m := fun _ => false) ?_
      (.inl hstrict) fun _ _ _ => rfl
    rintro token _ ⟨_, ⟨htoken, rfl⟩, rfl⟩
    refine follows_pure rfl ⟨fun x hx => ?_, ?_⟩ fun x => ⟨sameEmpty_concat _ _ _ _, rfl⟩
    · rcases List.mem_append.1 hx with hx | hx
      · exact hfollowed x hx
      · obtain rfl := List.mem_singleton.1 hx
        obtain ⟨lead, rfl⟩ := htoken
        exact ⟨hn, lead, rfl⟩
    · rw [keptPairs_concat, List.append_assoc]
      rfl
  · refine follows_pure rfl ⟨.inr ⟨done, _, rfl, hfollowed, hn, nofun⟩, ?_⟩
      fun x => ⟨sameEmpty_concat _ _ _ _, rfl⟩
    rw [keptPairs_concat]
    simp

theorem Follows.separated (hstop : Blind L stop) (hsees : Blind L (sees delimiter.text))
    (hitem : FollowsNode M item item') (hle : L.le M = true)
    (hstrict : L.le .strict = true) :
    Follows L (fun _ => false) [] (KeepsItems delimiter) anything (separated delimiter stop item)
      fun i => separated delimiter stop (item' i) := by
  refine Follows.bind (follows_iterate
      (fun i => itemStep delimiter stop (item' i)) (fun done ws
        (hdone : Followed delimiter done ∧ ws = keptPairs done) =>
        follows_itemStep hstop hsees hitem hle hstrict hdone)
      (fun _ => []) ⟨List.forall_mem_nil _, rfl⟩ fun _ => Iff.rfl)
    (m := fun _ => false) (fun pairs ws hpairs => ?_) (.inl (Level.le_refl L)) fun _ _ h => h
  exact follows_pure rfl ⟨pairs, hpairs.1, rfl, hpairs.2⟩ fun _ => trivial

/-- Nodes of the kind hold a list with separators of which none is needless. -/
def isList (k : Java.Kind) (delimiter : Delimiter) : Prop :=
  (Tree.Kind.java k).layout = .separated delimiter none ∧ k ≠ .tryResources

theorem keepsNode_list {k : Java.Kind} (hk : isList k delimiter) (before after : List Token)
    {items : List Node} {ws : List Word} (hitems : KeepsItems delimiter items ws) :
    KeepsNode (Node.hoisted (.java k) (before.map .token ++ (items.map .node ++ after.map .token)))
      (before.map Token.word ++ ws ++ after.map Token.word) := by
  obtain ⟨pairs, hpairs, rfl, rfl⟩ := hitems
  have hbody : isBodyKind (.java k) = false := by
    obtain ⟨hlayout, -⟩ := hk
    cases k <;> first | rfl | cases hlayout
  have hdrops : ∀ t, isTerminator (.java k) false t = false :=
    isTerminator_of_ne (fun h => hk.2 (Tree.Kind.java.inj h)) fun _ => rfl
  refine ⟨by cases before <;> cases items' : withSeparators delimiter pairs <;> cases after <;> rfl, ?_⟩
  rw [keptNode_hoisted, judgeIn_between hbody, hk.1]
  induction before with
  | nil =>
      exact (keptBetween_withSeparators hpairs (Option.some_ne_none delimiter).symm hdrops after).symm
  | cons t before ih =>
      exact (congrArg (t.word :: ·) ih).trans (keptBetween_token (hdrops t) _).symm

theorem delimited_eq (k : Java.Kind) (opening closing : String) (delimiter : Delimiter)
    (item : Parser Node) : delimited k opening closing delimiter item = (do
      let first ← take opening
      let items ← separated delimiter (sees closing) item
      let last ← take closing
      return Node.hoisted (.java k) ([first].map .token ++ (items.map .node ++ [last].map .token))) := by
  simp [delimited, build, parts, tok]

theorem Follows.delimited {k : Java.Kind} {opening closing : String} (hk : isList k delimiter)
    (hitem : FollowsNode M item item') :
    FollowsNode .strict (delimited k opening closing delimiter item)
      fun i => delimited k opening closing delimiter (item' i) := by
  simp only [delimited_eq]
  refine Follows.bind (follows_take opening) (m := fun _ => true) ?_ (.inr fun _ => rfl)
    fun _ _ _ => rfl
  rintro first _ rfl
  refine Follows.bind (((Follows.separated (L := .kept) (blind_kept (leadless_isSign closing))
    (blind_kept (leadless_isSign delimiter.text)) hitem (Level.kept_le M) rfl).reindex Prod.fst).behind _)
    (m := fun _ => true) ?_ (.inr fun _ => rfl) fun _ _ _ => rfl
  rintro items _ ⟨ws, hitems, rfl⟩
  refine Follows.bind ((follows_take closing).behind _) (m := fun _ => false) ?_ (.inl rfl)
    fun _ _ _ => rfl
  rintro last _ ⟨_, rfl, rfl⟩
  exact follows_pure rfl (keepsNode_list hk [first] [last] hitems)
    fun _ => trivial

theorem follows_commaItems (hitem : FollowsNode M item item')
    (hle : Level.strict.le M = true ) :
    Follows .strict (fun _ => false) [] (KeepsItems .comma) anything
      (separated .comma (pure false) item) fun i => separated .comma (pure false) (item' i) :=
  Follows.separated (blind_pure false) (blind_inner (inner_isSign (by decide))) hitem hle rfl

theorem keywordList_eq (k : Java.Kind) (keyword : String) (item : Parser Node) :
    build k [tok (take keyword), commaList item] = (do
      let first ← take keyword
      let items ← separated .comma (pure false) item
      return Node.hoisted (.java k) ([first].map .token ++ (items.map .node ++ [].map .token))) := by
  simp [build, parts, tok, commaList]

theorem Follows.keywordList {k : Java.Kind} {keyword : String} (hk : isList k .comma)
    (hitem : FollowsNode M item item') (hle : Level.strict.le M = true ) :
    FollowsNode .strict (build k [Parser.tok (take keyword), Parser.commaList item])
      fun i => build k [Parser.tok (take keyword), Parser.commaList (item' i)] := by
  simp only [keywordList_eq]
  refine Follows.bind (follows_take keyword) (m := fun _ => false) ?_ (.inl rfl) fun _ _ _ => rfl
  rintro first _ rfl
  refine Follows.bind (((follows_commaItems hitem hle).reindex Prod.fst).behind _)
    (m := fun _ => false) ?_ (.inl rfl) fun _ _ h => h
  rintro items _ ⟨ws, hitems, rfl⟩
  refine follows_pure rfl ?_ fun _ => trivial
  have h := keepsNode_list hk [first] [] hitems
  simpa using h

theorem commaList_eq (k : Java.Kind) (item : Parser Node) :
    build k [commaList item] = (do
      let items ← separated .comma (pure false) item
      return Node.hoisted (.java k) ([].map .token ++ (items.map .node ++ [].map .token))) := by
  simp [build, parts, commaList]

theorem Follows.commaList {k : Java.Kind} (hk : isList k .comma) (hitem : FollowsNode M item item')
    (hle : Level.strict.le M = true ) :
    Follows .strict (fun _ => false) [] KeepsNode anything (build k [Parser.commaList item])
      fun i => build k [Parser.commaList (item' i)] := by
  simp only [commaList_eq]
  refine Follows.bind (follows_commaItems hitem hle) (m := fun _ => false) ?_ (.inl rfl)
    fun _ _ h => h
  intro items ws hitems
  refine follows_pure rfl ?_ fun _ => trivial
  have h := keepsNode_list hk [] [] hitems
  simpa using h

end

end Codemod.Recipes.Semicolons.Sifted
