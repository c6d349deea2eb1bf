import Codemod.Proofs.Java.Sifted.Tokens

/-!
Ways to combine parsers that follow what is left of their tokens. A parser that succeeds on all tokens
marks those that go among the ones that it takes, by the words that its result keeps, and succeeds on
those that are left. The main statements say for each way to combine parsers that it does so if its
parts do.
-/

namespace Codemod.Recipes.Semicolons.Sifted

open Codemod.Tree Codemod.Java Codemod.Java.Parser

/-! ### Words that are kept -/

/-- The words of a node that are not needless. -/
def keptNode (n : Node) : List Word :=
  kept (judge false n)

/-- The words of a child that are not needless, if it is not needless itself. -/
def keptChild : Element → List Word
  | .token t => [t.word]
  | .node n => keptNode n

/-- The words of children that are not needless, if none of the children is. -/
def keptIn (es : List Element) : List Word :=
  es.flatMap keptChild

theorem keptIn_append (es fs : List Element) : keptIn (es ++ fs) = keptIn es ++ keptIn fs :=
  List.flatMap_append

theorem keptIn_token (t : Token) (es : List Element) : keptIn (.token t :: es) = t.word :: keptIn es :=
  rfl

theorem keptIn_node (n : Node) (es : List Element) : keptIn (.node n :: es) = keptNode n ++ keptIn es :=
  rfl

theorem judgeIn_ordinary {kind : Tree.Kind} (hlayout : kind.layout = .sequence)
    (hbody : isBodyKind kind = false) (es : List Element) :
    kept (judgeIn kind false es) = keptIn es := by
  have hterminator : ∀ t, isTerminator kind false t = false := by
    refine isTerminator_of_ne ?_ fun _ => rfl
    rintro rfl
    cases hlayout
  have henum : (kind == .java .enumBody) = false := by
    rw [isBodyKind, Bool.or_eq_false_iff] at hbody
    exact hbody.2
  induction es with
  | nil => rfl
  | cons e es ih =>
      have hdelimiters : kind.layout.delimiterTokens e es = [] := by rw [hlayout]; rfl
      rw [judgeIn, hdelimiters, List.map_nil, List.append_nil, kept_append, ih]
      cases e with
      | token t => rw [judgeChild, hterminator, keptIn_token]; rfl
      | node n => rw [judgeChild, hbody, henum]; rfl

theorem judgeIn_withLead (kind : Tree.Kind) (ends : Bool) (lead : String) (e : Element)
    (es : List Element) : judgeIn kind ends (e.withLead lead :: es) = judgeIn kind ends (e :: es) := by
  have hmarkers : (e.withLead lead).node?.map Node.markers = e.node?.map Node.markers := by
    cases e <;> rfl
  rw [judgeIn, judgeIn, delimiterTokens_congr _ hmarkers rfl]
  cases e with
  | token t => rfl
  | node n =>
      have hwords : Node.words { n with lead } = n.words :=
        words_reled (e := .node n) ⟨lead, rfl⟩
      have hjudge : ∀ ends, judge ends { n with lead } = judge ends n := fun ends => by
        rw [judge_eq, judge_eq]
      show _ ++ _ ++ _ = judgeChild kind ends _ (.node n) ++ _ ++ _
      rw [judgeChild, ← hjudge, ← hwords]
      rfl

theorem judge_hoisted (ends : Bool) (kind : Tree.Kind) (es : List Element) :
    judge ends (Node.hoisted kind es) = judgeIn kind ends es := by
  rw [judge_eq]
  cases es with
  | nil => rfl
  | cons e es => exact judgeIn_withLead kind ends "" e es

theorem keptNode_hoisted (kind : Tree.Kind) (es : List Element) :
    keptNode (Node.hoisted kind es) = kept (judgeIn kind false es) :=
  congrArg kept (judge_hoisted false kind es)

/-! ### What a parser takes -/

/-- The tokens between two states, those that go among them, and the words that are left. -/
structure Spent (L : Level) (moved : Bool) (t : Tokens) (words : List Word) (u : Tokens)
    (G : Sifting) : Prop where
  last : u.last = t.last
  ahead : t.ahead = G.map Prod.fst ++ u.ahead
  words : Sifting.words G = words
  screened : Screened G
  starts : Sifting.Starts G
  moved : moved = true → G ≠ []
  fits : ∀ {H}, L.At H → G = [] ∨ Fits false (G ++ H)

namespace Spent

variable {L M : Level} {moved moved' : Bool} {t u v : Tokens} {ws vs : List Word}
  {G G' H : Sifting}

theorem nil (L : Level) (t : Tokens) : Spent L false t [] t [] where
  last := rfl
  ahead := rfl
  words := rfl
  screened := trivial
  starts := Sifting.starts_nil
  moved := nofun
  fits _ := .inl rfl

theorem kept (h : Spent L moved t ws u G) (hne : G ≠ []) (hH : L.At H) :
    Level.kept.At (G ++ H) := by
  obtain ⟨l, G', rfl⟩ := h.starts.exists_cons hne
  refine ⟨Sifting.starts_kept _ _, (h.fits hH).resolve_left hne⟩

theorem level_at (h : Spent L moved t ws u G) (hH : L.At H) : L.At (G ++ H) := by
  by_cases hne : G = []
  · rwa [hne]
  · exact (h.kept hne hH).mono rfl

theorem under (h : Spent L moved t ws u G) (hle : L.le M = true ∨ G ≠ [])
    (hH : L.At H) : M.At (G ++ H) := by
  rcases hle with hle | hne
  · exact (h.level_at hH).mono hle
  · exact (h.kept hne hH).mono rfl

theorem append (h : Spent M moved t ws v G) (h' : Spent L moved' v vs u G')
    (hle : L.le M = true ∨ G' ≠ []) :
    Spent L (moved || moved') t (ws ++ vs) u (G ++ G') where
  last := h'.last.trans h.last
  ahead := by rw [h.ahead, h'.ahead, List.map_append, List.append_assoc]
  words := by rw [Sifting.words_append, h.words, h'.words]
  screened := h.screened.append h'.screened
  starts := h.starts.append h'.starts
  moved hmoved hnil := by
    obtain ⟨hG, hG'⟩ := List.append_eq_nil_iff.1 hnil
    rcases Bool.or_eq_true_iff.1 hmoved with hm | hm
    · exact h.moved hm hG
    · exact h'.moved hm hG'
  fits {H} hH := by
    rw [List.append_assoc]
    rcases h.fits (h'.under hle hH) with rfl | hfits
    · exact h'.fits hH
    · exact .inr hfits

theorem strict (h : Spent .strict moved t ws u G) (hH : Fits false H) : Fits false (G ++ H) :=
  h.level_at (L := .strict) hH

theorem loose (h : Spent .loose moved t ws u G) (hH : Fits true H) : Fits true (G ++ H) :=
  h.level_at (L := .loose) hH

theorem genuine (h : Spent L moved t ws u G) (ht : t.Genuine) : u.Genuine :=
  fun l hl => ht l (h.ahead ▸ List.mem_append_right _ hl)

theorem weaken (h : Spent M moved' t ws u G) (hle : L.le M = true)
    (hmoved : moved = true → moved' = true) : Spent L moved t ws u G :=
  ⟨h.last, h.ahead, h.words, h.screened, h.starts, fun hm => h.moved (hmoved hm),
    fun hH => h.fits (hH.mono hle)⟩

end Spent

/-! ### Parsers that follow -/

/-- Where the parser succeeds, it has taken tokens of which the words of its result are left, and each of
the other parsers succeeds on those that are left, with a result that is related to its own. -/
structure Follows {ι α β : Type} (L : Level) (moved : α → Bool) (before : List Word)
    (keeps : α → List Word → Prop) (R : α → β → Prop) (p : Parser α) (q : ι → Parser β) : Prop where
  run : ∀ {t a u}, t.Genuine → p t = .ok (a, u) → ∃ G words, keeps a (before ++ words) ∧
    Spent L (moved a) t words u G ∧
    ∀ i {H t'}, L.At H → Sifts (G ++ H) t t' →
      ∃ b u', q i t' = .ok (b, u') ∧ Sifts H u u' ∧ R a b

/-- Any two results are related. -/
def anything {α β : Type} (_ : α) (_ : β) : Prop :=
  True

/-- Neither of the lists is empty, or both are. -/
def sameEmpty {α β : Type} (xs : List α) (ys : List β) : Prop :=
  ys = [] ↔ xs = []

/-- The word of a token. -/
def KeepsToken (t : Token) (ws : List Word) : Prop :=
  ws = [t.word]

/-- The words that a node keeps, which is no item of a list yet. -/
def KeepsNode (n : Node) (ws : List Word) : Prop :=
  n.markers = [] ∧ ws = keptNode n

/-- The words that children keep. -/
def KeepsAll (es : List Element) (ws : List Word) : Prop :=
  ws = keptIn es

/-- The parser takes a token of the same word. -/
abbrev FollowsToken {ι : Type} (L : Level) (p : Parser Token) (q : ι → Parser Token) : Prop :=
  Follows L (fun _ => true) [] KeepsToken anything p q

/-- The parser takes the tokens of a node. -/
abbrev FollowsNode {ι : Type} (L : Level) (p : Parser Node) (q : ι → Parser Node) : Prop :=
  Follows L (fun _ => true) [] KeepsNode anything p q

/-- The parser takes the tokens of children. -/
abbrev FollowsAll {ι : Type} (L : Level) (moved : Bool) (p : Parser (List Element))
    (q : ι → Parser (List Element)) : Prop :=
  Follows L (fun _ => moved) [] KeepsAll sameEmpty p q

section
variable {ι α β γ δ : Type} {L M : Level} {moved moved' : α → Bool} {before : List Word}
  {keeps : α → List Word → Prop} {R : α → β → Prop} {p : Parser α} {q : ι → Parser β}

theorem Follows.weaken (h : Follows M moved' before keeps R p q) (hle : L.le M = true)
    (hmoved : ∀ a, moved a = true → moved' a = true) : Follows L moved before keeps R p q := by
  refine ⟨fun {t a u} ht hrun => ?_⟩
  obtain ⟨G, words, hkeeps, hspent, hruns⟩ := h.run ht hrun
  exact ⟨G, words, hkeeps, hspent.weaken hle (hmoved a), fun i _ _ hH => hruns i (hH.mono hle)⟩

theorem Follows.behind (h : Follows L moved [] keeps R p q) (before : List Word) :
    Follows L moved before (fun a ws => ∃ vs, keeps a vs ∧ ws = before ++ vs) R p q := by
  refine ⟨fun {t a u} ht hrun => ?_⟩
  obtain ⟨G, words, hkeeps, hrest⟩ := h.run ht hrun
  exact ⟨G, words, ⟨words, hkeeps, rfl⟩, hrest⟩

theorem Follows.reindex {κ : Type} (h : Follows L moved before keeps R p q) (f : κ → ι) :
    Follows L moved before keeps R p fun x => q (f x) := by
  refine ⟨fun {t a u} ht hrun => ?_⟩
  obtain ⟨G, words, hkeeps, hspent, hruns⟩ := h.run ht hrun
  exact ⟨G, words, hkeeps, hspent, fun i => hruns (f i)⟩

theorem Follows.congr {q' : ι → Parser β} (h : Follows L moved before keeps R p q)
    (heq : ∀ i, q' i = q i) : Follows L moved before keeps R p q' := by
  rwa [funext heq]

theorem Follows.toKept (h : Follows L moved before keeps R p q) :
    Follows .kept moved before keeps R p q :=
  h.weaken rfl fun _ => id

theorem Follows.still (h : Follows M moved before keeps R p q) (hle : L.le M = true) :
    Follows L (fun _ => false) before keeps R p q :=
  h.weaken hle nofun

theorem follows_never (h : ∀ t a u, p t ≠ .ok (a, u)) : Follows L moved before keeps R p q :=
  ⟨fun _ hrun => absurd hrun (h _ _ _)⟩

theorem follows_fail {error : Nat → ParseError} :
    Follows L moved before keeps R (fail error) q :=
  follows_never fun _ _ _ => fail_run

theorem follows_expected {wanted : Wanted} :
    Follows L moved before keeps R (expected wanted) q :=
  follows_never fun _ _ _ => expected_run

theorem follows_pure {a : α} {b : ι → β} (hmoved : moved a = false) (hkeeps : keeps a before)
    (hR : ∀ i, R a (b i)) : Follows L moved before keeps R (pure a) fun i => pure (b i) := by
  refine ⟨fun {t a' u} _ hrun => ?_⟩
  obtain ⟨rfl, rfl⟩ := pure_run.1 hrun
  refine ⟨[], [], by rwa [List.append_nil], hmoved ▸ .nil L u, fun i H t' _ hsifts => ?_⟩
  exact ⟨b i, t', rfl, hsifts, hR i⟩

theorem Follows.bind {m moved' : γ → Bool} {keeps' : γ → List Word → Prop}
    {R' : γ → δ → Prop} {k : α → Parser γ} {l : ι → β → Parser δ}
    (hp : Follows M moved before keeps R p q)
    (hk : ∀ a ws, keeps a ws → Follows L m ws keeps' R' (k a)
      fun x : ι × { b // R a b } => l x.1 x.2.1)
    (hle : L.le M = true ∨ ∀ c, m c = true)
    (hmoved : ∀ a c, moved' c = true → (moved a || m c) = true) :
    Follows L moved' before keeps' R' (p >>= k) fun i => q i >>= l i := by
  refine ⟨fun {t c u} ht hrun => ?_⟩
  obtain ⟨a, v, hpa, hka⟩ := bind_run.1 hrun
  obtain ⟨G, ws, hws, hG, hq⟩ := hp.run ht hpa
  obtain ⟨G', vs, hvs, hG', hl⟩ := (hk a _ hws).run (hG.genuine ht) hka
  have hle' : L.le M = true ∨ G' ≠ [] := hle.imp_right fun h => hG'.moved (h c)
  refine ⟨G ++ G', ws ++ vs, by rwa [← List.append_assoc],
    (hG.append hG' hle').weaken (Level.le_refl L) (hmoved a c), fun i H t' hH hsifts => ?_⟩
  rw [List.append_assoc] at hsifts
  obtain ⟨b, v', hb, hsifts, hR⟩ := hq i (hG'.under hle' hH) hsifts
  obtain ⟨d, u', hd, hrest⟩ := hl (i, ⟨b, hR⟩) hH hsifts
  exact ⟨d, u', bind_run.2 ⟨b, v', hb, hd⟩, hrest⟩

theorem Follows.ite {c : Bool} {p' : Parser α} {q' : ι → Parser β}
    (hp : Follows L moved before keeps R p q) (hp' : Follows L moved before keeps R p' q') :
    Follows L moved before keeps R (if c then p else p') fun i => if c then q i else q' i := by
  cases c
  · exact hp'
  · exact hp

/-- The parser, where the test has this answer. -/
def answering (c : Parser Bool) (b : Bool) (p : Parser α) : Parser α := do
  if (← c) = b then p else fail .stalled

theorem answering_run {c : Parser Bool} (hc : Peeks c) {b : Bool} {t u : Tokens} {a : α} :
    answering c b p t = .ok (a, u) ↔ c t = .ok (b, t) ∧ p t = .ok (a, u) := by
  rw [answering, bind_run]
  constructor
  · rintro ⟨answer, v, hanswer, hrun⟩
    obtain rfl := hc hanswer
    split_ifs at hrun with hb
    · exact ⟨hb ▸ hanswer, hrun⟩
    · exact absurd hrun fail_run
  · rintro ⟨hanswer, hrun⟩
    exact ⟨b, t, hanswer, by rwa [if_pos rfl]⟩

theorem answering_bind (c : Parser Bool) (b : Bool) (k : α → Parser γ) :
    answering c b (p >>= k) = answering c b p >>= k := by
  rw [answering, answering, bind_assoc]
  congr 1
  funext answer
  split_ifs <;> rfl

theorem Follows.answered {c : Parser Bool} (hc : Peeks c) {b : Bool}
    (hp : Follows L moved before keeps R p q)
    (hsame : ∀ {t a u ws G H t'}, p t = .ok (a, u) → keeps a (before ++ ws) →
      Spent L (moved a) t ws u G → L.At H → Sifts (G ++ H) t t' → c t = .ok (b, t) →
        c t' = .ok (b, t')) :
    Follows L moved before keeps R (answering c b p) fun i => answering c b (q i) := by
  refine ⟨fun {t a u} ht hrun => ?_⟩
  obtain ⟨hanswer, hrun⟩ := (answering_run hc).1 hrun
  obtain ⟨G, ws, hws, hG, hq⟩ := hp.run ht hrun
  refine ⟨G, ws, hws, hG, fun i H t' hH hsifts => ?_⟩
  obtain ⟨b', u', hb, hrest⟩ := hq i hH hsifts
  exact ⟨b', u', (answering_run hc).2 ⟨hsame hrun hws hG hH hsifts hanswer, hb⟩, hrest⟩

theorem Follows.answers {c : Parser Bool} (hc : Peeks c) {p' : Parser α} {q' : ι → Parser β}
    (hp : Follows L moved before keeps R (answering c true p) fun i => answering c true (q i))
    (hp' : Follows L moved before keeps R (answering c false p')
      fun i => answering c false (q' i)) :
    Follows L moved before keeps R (do if ← c then p else p') fun i => (do if ← c then q i else q' i) := by
  refine ⟨fun {t a u} ht hrun => ?_⟩
  obtain ⟨answer, v, hanswer, hrun⟩ := bind_run.1 hrun
  obtain rfl := hc hanswer
  cases answer with
  | false =>
      obtain ⟨G, ws, hws, hG, hq⟩ := hp'.run ht ((answering_run hc).2 ⟨hanswer, hrun⟩)
      refine ⟨G, ws, hws, hG, fun i H t' hH hsifts => ?_⟩
      obtain ⟨b, u', hb, hrest⟩ := hq i hH hsifts
      obtain ⟨hanswer', hb⟩ := (answering_run hc).1 hb
      exact ⟨b, u', bind_run.2 ⟨false, t', hanswer', hb⟩, hrest⟩
  | true =>
      obtain ⟨G, ws, hws, hG, hq⟩ := hp.run ht ((answering_run hc).2 ⟨hanswer, hrun⟩)
      refine ⟨G, ws, hws, hG, fun i H t' hH hsifts => ?_⟩
      obtain ⟨b, u', hb, hrest⟩ := hq i hH hsifts
      obtain ⟨hanswer', hb⟩ := (answering_run hc).1 hb
      exact ⟨b, u', bind_run.2 ⟨true, t', hanswer', hb⟩, hrest⟩

theorem Follows.cond_at {c : Parser Bool} {p' : Parser α} {q' : ι → Parser β} (hc : Blind M c)
    (hlevel : L.le M = true ∨ ∀ a, moved a = true)
    (hp : Follows L moved before keeps R p q) (hp' : Follows L moved before keeps R p' q') :
    Follows L moved before keeps R (do if ← c then p else p')
      fun i => (do if ← c then q i else q' i) := by
  have hsame : ∀ {b : Bool} {a : α} {t t' u : Tokens} {ws : List Word} {G H : Sifting},
      Spent L (moved a) t ws u G → L.At H → Sifts (G ++ H) t t' → c t = .ok (b, t) →
        c t' = .ok (b, t') := fun hG hH =>
    hc.same (hG.under (hlevel.imp_right fun h => hG.moved (h _)) hH)
  exact .answers hc.peeks (hp.answered hc.peeks fun _ _ => hsame) (hp'.answered hc.peeks fun _ _ => hsame)

/-- A test in front of a construct, whose first token is left. -/
theorem Follows.cond {c : Parser Bool} {p' : Parser α} {q' : ι → Parser β} (hc : Blind .kept c)
    (hp : Follows L (fun _ => true) before keeps R p q)
    (hp' : Follows L (fun _ => true) before keeps R p' q') :
    Follows L (fun _ => true) before keeps R (do if ← c then p else p')
      fun i => (do if ← c then q i else q' i) :=
  hp.cond_at hc (.inr fun _ => rfl) hp'

/-- A test whose answer is used later on, in front of a construct whose first token is left. -/
theorem Follows.asked {c : Parser Bool} (hc : Blind .kept c) {p : Bool → Parser α}
    {q : ι → Bool → Parser β} (h : ∀ b, Follows L (fun _ => true) before keeps R (p b) fun i => q i b) :
    Follows L (fun _ => true) before keeps R (c >>= p) fun i => c >>= q i := by
  have heq : ∀ {γ : Type} (k : Bool → Parser γ), c >>= k = (do if ← c then k true else k false) := by
    intro γ k
    congr 1
    funext b
    cases b <;> rfl
  rw [heq p]
  exact ((h true).cond hc (h false)).congr fun i => heq (q i)

/-- Where the parser succeeds, the token in front passes the test. -/
def Fronts (r : Token → Bool) (p : Parser α) : Prop :=
  ∀ ⦃t a u⦄, p t = .ok (a, u) → r (t.nth 0) = true

/-- A test of the second token in front of a construct whose first token ends no member. -/
theorem Follows.cond_second {r s : Token → Bool} {p' : Parser α} {q' : ι → Parser β}
    (hr : ∀ t, isBound t = true → r t = false) (hs : Inner s)
    (hp : Follows L (fun _ => true) before keeps R p q)
    (hp' : Follows L (fun _ => true) before keeps R p' q') (hfront : Fronts r p)
    (hfront' : Fronts r p') :
    Follows L (fun _ => true) before keeps R (do if ← test s 1 then p else p')
      fun i => (do if ← test s 1 then q i else q' i) := by
  have hsame : ∀ {b : Bool} {t t' u : Tokens} {ws : List Word} {G H : Sifting}, r (t.nth 0) = true →
      Spent L true t ws u G → L.At H → Sifts (G ++ H) t t' → test s 1 t = .ok (b, t) →
        test s 1 t' = .ok (b, t') := by
    intro b t t' u ws G H hfront hG hH hsifts hanswer
    obtain ⟨rfl, -⟩ := pure_run.1 ((test_run s 1 t).symm.trans hanswer)
    rw [test_run, hsifts.second (hG.kept (hG.moved rfl) hH) ?_ hs]
    rw [← Bool.not_eq_true]
    intro hbound
    rw [hr _ hbound] at hfront
    cases hfront
  exact .answers peeks_test (hp.answered peeks_test fun hrun _ => hsame (hfront hrun))
    (hp'.answered peeks_test fun hrun _ => hsame (hfront' hrun))

theorem fronts_takeIf {r : Token → Bool} {wanted : Wanted} : Fronts r (takeIf r wanted) := by
  intro t a u h
  obtain ⟨l, rest, ht, -, rfl, hl⟩ := takeIf_run.1 h
  rw [ht]
  exact hl

theorem Fronts.mono {r r' : Token → Bool} (h : Fronts r p) (hr : ∀ t, r t = true → r' t = true) :
    Fronts r' p :=
  fun _ _ _ hrun => hr _ (h hrun)

theorem Fronts.bind {r : Token → Bool} (h : Fronts r p) {k : α → Parser γ} : Fronts r (p >>= k) := by
  intro t c u hrun
  obtain ⟨a, v, ha, -⟩ := bind_run.1 hrun
  exact h ha

theorem Fronts.cond {r : Token → Bool} {c : Parser Bool} (hc : Peeks c) {p' : Parser α}
    (h : Fronts r p) (h' : Fronts r p') : Fronts r (do if ← c then p else p') := by
  intro t a u hrun
  obtain ⟨answer, v, hanswer, hrun⟩ := bind_run.1 hrun
  obtain rfl := hc hanswer
  cases answer
  · exact h' hrun
  · exact h hrun

theorem fronts_build {r : Token → Bool} {wanted : Wanted} (k : Java.Kind)
    (ps : List (Parser (List Element))) : Fronts r (Parser.build k (tok (takeIf r wanted) :: ps)) :=
  fronts_takeIf.bind.bind.bind

/-- Where the parser succeeds, it has taken nothing, or the token in front passes the test. -/
def Leads (r : Token → Bool) (p : Parser α) : Prop :=
  ∀ ⦃t a u⦄, p t = .ok (a, u) → u = t ∨ r (t.nth 0) = true

theorem leads_pure {r : Token → Bool} (a : α) : Leads r (pure a) :=
  fun _ _ _ hrun => .inl (pure_run.1 hrun).2

theorem Peeks.leads {r : Token → Bool} {c : Parser Bool} (hc : Peeks c) : Leads r c :=
  fun _ _ _ hrun => .inl (hc hrun)

theorem Fronts.leads {r : Token → Bool} (h : Fronts r p) : Leads r p :=
  fun _ _ _ hrun => .inr (h hrun)

theorem Leads.bind {r : Token → Bool} (h : Leads r p) {k : α → Parser γ} (hk : ∀ a, Leads r (k a)) :
    Leads r (p >>= k) := by
  intro t c u hrun
  obtain ⟨a, v, ha, hrest⟩ := bind_run.1 hrun
  rcases h ha with rfl | hfront
  · exact hk a hrest
  · exact .inr hfront

theorem Leads.fronts {r : Token → Bool} (h : Leads r p) {k : α → Parser γ} (hk : ∀ a, Fronts r (k a)) :
    Fronts r (p >>= k) := by
  intro t c u hrun
  obtain ⟨a, v, ha, hrest⟩ := bind_run.1 hrun
  rcases h ha with rfl | hfront
  · exact hk a hrest
  · exact hfront

theorem fronts_extend {r : Token → Bool} {wanted : Wanted} (k : Java.Kind) (start : List Element)
    (ps : List (Parser (List Element))) :
    Fronts r (Parser.build k (pure start :: tok (takeIf r wanted) :: ps)) :=
  ((leads_pure start).fronts fun _ => fronts_takeIf.bind.bind.bind).bind

theorem Leads.optional {r : Token → Bool} {c : Parser Bool} (hc : Peeks c) {p : Parser (List Element)}
    (h : Leads r p) : Leads r (optional c p) := by
  intro t es u hrun
  obtain ⟨answer, v, hanswer, hrun⟩ := bind_run.1 hrun
  obtain rfl := hc hanswer
  cases answer
  · exact leads_pure [] hrun
  · exact h hrun

theorem Leads.many {r : Token → Bool} {c : Parser Bool} (hc : Peeks c) {p : Parser (List Element)}
    (h : Leads r p) : Leads r (manyWhile c p) := by
  intro t es u hrun
  refine iterate_induct (P := fun _ v => v = t ∨ r (t.nth 0) = true)
    (Q := fun _ v => v = t ∨ r (t.nth 0) = true) ?_ ?_ (.inl rfl) hrun
  · rintro done v done' w hv hstep
    obtain ⟨-, ⟨-, next, hnext, -⟩ | ⟨⟨⟩, -⟩⟩ := (manyStep_run hc).1 hstep
    rcases hv with rfl | hfront
    · exact h hnext
    · exact .inr hfront
  · rintro done v done' w hv hstep
    obtain ⟨-, ⟨⟨⟩, -⟩ | ⟨-, -, rfl⟩⟩ := (manyStep_run hc).1 hstep
    exact hv

theorem Leads.parts {r : Token → Bool} {p : Parser (List Element)} (h : Leads r p)
    {ps : List (Parser (List Element))} (hps : Fronts r (parts ps)) : Fronts r (parts (p :: ps)) :=
  h.fronts fun _ => hps.bind

end

/-! ### Tokens -/

section
variable {ι : Type} {r : Token → Bool} {wanted : Wanted} {L : Level}

theorem Spent.one {l : Lexed} (h : ∀ {H}, L.At H → Fits (isBound l.token) H) (rest : List Lexed)
    (last : Lexed) : Spent L true ⟨l :: rest, last⟩ [l.token.word] ⟨rest, last⟩ [(l, false)] where
  last := rfl
  ahead := rfl
  words := rfl
  screened := .inr trivial
  starts := Sifting.starts_kept _ _
  moved _ := List.cons_ne_nil _ _
  fits hH := .inr (h hH)

theorem Spent.taken {t : Tokens} {l : Lexed} {rest : List Lexed} (ht : t = ⟨l :: rest, t.last⟩) :
    Spent .strict true t [l.token.word] ⟨rest, t.last⟩ [(l, false)] := by
  rw [ht]
  exact .one (L := .strict) (fun hH => fits_bound hH _) rest t.last

theorem Sifts.takes {l : Lexed} {F : Sifting} {rest : List Lexed} {last : Lexed} {t' : Tokens}
    (h : Sifts ((l, false) :: F) ⟨l :: rest, last⟩ t') (hr : Leadless r) (hl : r l.token = true) :
    ∃ m u', takeIf r wanted t' = .ok (m, u') ∧ Sifts F ⟨rest, last⟩ u' ∧
      (isSign l.token ">" = true → adjacent u'.ahead = adjacent rest) := by
  obtain ⟨l', ls, ht, ht', hword, hshift, hrest⟩ := h.kept
  cases ht
  exact ⟨l'.token, _, takeIf_run.2 ⟨l', ls, ht', rfl, rfl, (hr.eq hword).trans hl⟩, hrest, hshift⟩

theorem Sifts.takes_sign {l : Lexed} {F : Sifting} {rest : List Lexed} {last : Lexed} {t' : Tokens}
    (h : Sifts ((l, false) :: F) ⟨l :: rest, last⟩ t') {text : String} (hl : isSign l.token text = true) :
    ∃ m u', take text t' = .ok (m, u') ∧ Sifts F ⟨rest, last⟩ u' ∧
      (isSign l.token ">" = true → adjacent u'.ahead = adjacent rest) :=
  h.takes (leadless_isSign text) hl

theorem follows_takeIf_at (hr : Leadless r)
    (hfits : ∀ {t H}, r t = true → L.At H → Fits (isBound t) H) :
    FollowsToken L (takeIf r wanted) fun _ : ι => takeIf r wanted := by
  refine ⟨fun {t a u} _ hrun => ?_⟩
  obtain ⟨l, rest, ht, rfl, rfl, hl⟩ := takeIf_run.1 hrun
  rw [ht]
  refine ⟨[(l, false)], [l.token.word], rfl, .one (hfits hl) rest t.last, fun _ H t' _ hsifts => ?_⟩
  obtain ⟨m, u', hm, hrest, -⟩ := hsifts.takes hr hl
  exact ⟨m, u', hm, hrest, trivial⟩

theorem follows_takeIf (hr : Leadless r) :
    FollowsToken .strict (takeIf r wanted) fun _ : ι => takeIf r wanted :=
  follows_takeIf_at (L := .strict) hr fun _ hH => fits_bound hH _

theorem follows_take (text : String) : FollowsToken .strict (take text) fun _ : ι => take text :=
  follows_takeIf (leadless_isSign text)

theorem follows_takeIdentifier : FollowsToken .strict takeIdentifier fun _ : ι => takeIdentifier :=
  follows_takeIf fun _ => rfl

theorem follows_takeBound {text : String} (h : text ∈ [Grammar.openBrace, Grammar.closeBrace, ";"]) :
    FollowsToken .loose (take text) fun _ : ι => take text :=
  follows_takeIf_at (L := .loose) (leadless_isSign text) fun {t H} ht hH => by
    rwa [show isBound t = true from List.any_eq_true.2 ⟨text, h, ht⟩]

theorem Follows.tok {p : Parser Token} {q : ι → Parser Token} (h : FollowsToken L p q) :
    FollowsAll L true (tok p) fun i => tok (q i) :=
  h.bind (m := fun _ => false) (fun _ _ hws => follows_pure rfl hws fun _ => by simp [sameEmpty])
    (.inl (Level.le_refl L)) fun _ _ _ => rfl

theorem Follows.one {moved : Bool} {p : Parser Node} {q : ι → Parser Node}
    (h : Follows L (fun _ => moved) [] KeepsNode anything p q) :
    FollowsAll L moved (one p) fun i => one (q i) :=
  h.bind (m := fun _ => false) (fun n _ hws => follows_pure rfl
    (hws.2.trans ((keptIn_node n []).trans (List.append_nil _)).symm) fun _ => by simp [sameEmpty])
    (.inl (Level.le_refl L)) fun _ _ h => by rw [h]; rfl

end

/-! ### Parts -/

section
variable {ι : Type} {L M : Level} {moved moved' : Bool} {c : Parser Bool}
  {p : Parser (List Element)} {q : ι → Parser (List Element)}

theorem follows_nil : FollowsAll L false (pure []) fun _ : ι => pure [] :=
  follows_pure rfl rfl fun _ => Iff.rfl

theorem Follows.optional (hc : Blind L c) (hp : FollowsAll L moved p q) :
    FollowsAll L false (optional c p) fun i => optional c (q i) :=
  (hp.still (Level.le_refl L)).cond_at hc (.inl (Level.le_refl L)) follows_nil

/-- The parts follow one by one; behind each of them stands a token that is left, or what may stand
behind all of them. -/
inductive FollowsParts {ι : Type} : Level → Bool → List (Parser (List Element)) →
    (ι → List (Parser (List Element))) → Prop where
  | nil : FollowsParts .loose false [] fun _ => []
  | cons {L M : Level} {moved moved' : Bool} {p : Parser (List Element)}
      {q : ι → Parser (List Element)} {ps : List (Parser (List Element))}
      {qs : ι → List (Parser (List Element))} (h : FollowsAll M moved p q)
      (hs : FollowsParts L moved' ps qs) :
      FollowsParts (if moved' then L else L.min M) (moved || moved') (p :: ps) fun i => q i :: qs i

variable {ps : List (Parser (List Element))} {qs : ι → List (Parser (List Element))}

theorem keepsAll_append {es fs : List Element} {ws vs : List Word} (hes : KeepsAll es ws)
    (hfs : KeepsAll fs vs) : KeepsAll (es ++ fs) (ws ++ vs) := by
  rw [KeepsAll, keptIn_append, ← hes, ← hfs]

theorem sameEmpty_append {α β : Type} {xs xs' : List α} {ys ys' : List β} (h : sameEmpty xs ys)
    (h' : sameEmpty xs' ys') : sameEmpty (xs ++ xs') (ys ++ ys') :=
  List.append_eq_nil_iff.trans ((and_congr h h').trans List.append_eq_nil_iff.symm)

theorem Follows.append {es : List Element} {es' : ι → List Element} {ws : List Word}
    (hp : FollowsAll L moved p q) (hes : KeepsAll es ws) (hsame : ∀ i, sameEmpty es (es' i)) :
    Follows L (fun _ => moved) ws KeepsAll sameEmpty (do return es ++ (← p))
      fun i => (do return es' i ++ (← q i)) := by
  refine (hp.behind ws).bind (m := fun _ => false) ?_ (.inl (Level.le_refl L))
    fun _ _ h => by rw [h]; rfl
  rintro fs _ ⟨vs, hfs, rfl⟩
  exact follows_pure rfl (keepsAll_append hes hfs) fun x => sameEmpty_append (hsame x.1) x.2.2

theorem Follows.first (hp : FollowsAll M moved p q)
    (hps : FollowsAll L moved' (parts ps) fun i => parts (qs i))
    (hle : L.le M = true ∨ moved' = true) :
    FollowsAll L (moved || moved') (parts (p :: ps)) fun i => parts (q i :: qs i) := by
  refine Follows.bind hp (m := fun _ => moved') (fun es ws hes => ?_) (hle.imp_right fun h _ => h)
    fun _ _ => id
  exact (hps.reindex Prod.fst).append hes fun x => x.2.2

theorem FollowsParts.parts (h : FollowsParts L moved ps qs) :
    FollowsAll L moved (parts ps) fun i => parts (qs i) := by
  induction h with
  | nil => exact follows_nil
  | @cons L M _ moved' _ _ _ _ hp _ ih =>
      cases moved' with
      | true => exact hp.first ih (.inr rfl)
      | false =>
          exact hp.first (ih.weaken (Level.min_le_left L M) fun _ => id) (.inl (Level.min_le_right L M))

/-- Nodes of the kind hold a sequence of children of which none is needless. -/
def isOrdinary (k : Java.Kind) : Prop :=
  (Tree.Kind.java k).layout = .sequence ∧ isBodyKind (.java k) = false

theorem keepsNode_hoisted {k : Java.Kind} (hk : isOrdinary k) {es : List Element} {ws : List Word}
    (h : KeepsAll es ws) : KeepsNode (Node.hoisted (.java k) es) ws := by
  refine ⟨by cases es <;> rfl, ?_⟩
  rw [keptNode_hoisted, judgeIn_ordinary hk.1 hk.2]
  exact h

theorem follows_hoisted {moved : List Element → Bool} {k : Java.Kind} (hk : isOrdinary k)
    {p : Parser (List Element)} {q : ι → Parser (List Element)} {before : List Word}
    (h : Follows L moved before KeepsAll sameEmpty p q) {moved' : Bool}
    (hmoved : ∀ es, moved' = true → moved es = true) :
    Follows L (fun _ => moved') before KeepsNode anything
      (do return Node.hoisted (.java k) (← p)) fun i => (do return Node.hoisted (.java k) (← q i)) :=
  h.bind (m := fun _ => false)
    (fun _ _ hes => follows_pure rfl (keepsNode_hoisted hk hes) fun _ => trivial)
    (.inl (Level.le_refl L)) fun es _ h => by rw [hmoved es h]; rfl

theorem FollowsParts.build (h : FollowsParts L moved ps qs) {k : Java.Kind}
    (hk : isOrdinary k) :
    Follows L (fun _ => moved) [] KeepsNode anything (build k ps) fun i => build k (qs i) :=
  follows_hoisted hk h.parts fun _ => id

/-- The parts go on behind children that have been parsed before. -/
theorem FollowsParts.extend (h : FollowsParts L moved ps qs) {k : Java.Kind} (hk : isOrdinary k)
    {start : List Element} {starts : ι → List Element} {ws : List Word} (hstart : KeepsAll start ws)
    (hsame : ∀ i, sameEmpty start (starts i)) :
    Follows L (fun _ => moved) ws KeepsNode anything (Parser.build k (pure start :: ps))
      fun i => Parser.build k (pure (starts i) :: qs i) :=
  follows_hoisted hk (h.parts.append hstart hsame) fun _ => id

end

/-! ### Loops -/

section
variable {ι α β : Type} {L : Level} {keeps ends : α → List Word → Prop} {R : α → β → Prop}

theorem Spent.shorter {moved : Bool} {t t' u u' : Tokens} {ws : List Word} {G H : Sifting}
    (h : Spent L moved t ws u G) (hne : G ≠ []) (hsifts : Sifts (G ++ H) t t')
    (hsifts' : Sifts H u u') : u'.ahead.length < t'.ahead.length := by
  obtain ⟨l, G', rfl⟩ := h.starts.exists_cons hne
  rw [hsifts.left.length, hsifts'.left.length, Sifting.words_append, Sifting.words_kept,
    List.length_append, List.length_cons]
  omega

/-- What a round of a loop keeps: all rounds but the last one `keeps`, the last one `ends`. -/
def KeepsRound (keeps ends : α → List Word → Prop) (x : α × Bool) (ws : List Word) : Prop :=
  if x.2 then keeps x.1 ws else ends x.1 ws

/-- The rounds have related results and agree on whether there is another one. -/
def SameRound (R : α → β → Prop) (x : α × Bool) (y : β × Bool) : Prop :=
  R x.1 y.1 ∧ y.2 = x.2

theorem follows_repeatWithin {step : α → Parser (α × Bool)} {step' : ι → β → Parser (β × Bool)}
    (hstep : ∀ a ws, keeps a ws → Follows L Prod.snd ws (KeepsRound keeps ends) (SameRound R)
      (step a) fun x : ι × { b // R a b } => step' x.1 x.2.1)
    {limit : Nat} {a b : α} {ws : List Word} (ha : keeps a ws) {t u : Tokens} (ht : t.Genuine)
    (h : repeatWithin step limit a t = .ok (b, u)) :
    ∃ G vs, ends b (ws ++ vs) ∧ Spent L false t vs u G ∧
      ∀ i {a' H t' limit'}, R a a' → L.At H → Sifts (G ++ H) t t' → t'.ahead.length < limit' →
        ∃ b' u', repeatWithin (step' i) limit' a' t' = .ok (b', u') ∧ Sifts H u u' ∧ R b b' := by
  -- The second loop has a limit of its own: each round but the last takes a token that is left there,
  -- so any limit above their number will do.
  induction limit generalizing a t ws with
  | zero => exact absurd h fail_run
  | succ limit ih =>
      obtain ⟨⟨c, more⟩, v, hround, h⟩ := bind_run.1 h
      obtain ⟨G, vs, hvs, hG, hruns⟩ := (hstep a ws ha).run ht hround
      cases more with
      | false =>
          cases h
          refine ⟨G, vs, hvs, hG, fun i {a' H t' limit'} hR hH hsifts hlimit => ?_⟩
          obtain ⟨limit', rfl⟩ := Nat.exists_eq_succ_of_ne_zero (Nat.ne_zero_of_lt hlimit)
          obtain ⟨⟨b', more'⟩, u', hround', hsifts', hb, hmore⟩ := hruns (i, ⟨a', hR⟩) hH hsifts
          cases hmore
          exact ⟨b', u', bind_run.2 ⟨_, u', hround', rfl⟩, hsifts', hb⟩
      | true =>
          obtain ⟨G', vs', hvs', hG', hruns'⟩ := ih hvs (hG.genuine ht) h
          refine ⟨G ++ G', vs ++ vs', by rwa [← List.append_assoc],
            (hG.append hG' (.inl (Level.le_refl L))).weaken (Level.le_refl L) nofun,
            fun i {a' H t' limit'} hR hH hsifts hlimit => ?_⟩
          obtain ⟨limit', rfl⟩ := Nat.exists_eq_succ_of_ne_zero (Nat.ne_zero_of_lt hlimit)
          rw [List.append_assoc] at hsifts
          obtain ⟨⟨c', more'⟩, v', hround', hsifts', hc, hmore⟩ :=
            hruns (i, ⟨a', hR⟩) (hG'.level_at hH) hsifts
          cases hmore
          have hshorter := hG.shorter (hG.moved rfl) hsifts hsifts'
          obtain ⟨b', u', hrest, hsifts'', hb⟩ := hruns' i hc hH hsifts'
            (show v'.ahead.length < limit' by omega)
          exact ⟨b', u', bind_run.2 ⟨_, v', hround', hrest⟩, hsifts'', hb⟩

theorem follows_iterate {step : α → Parser (α × Bool)} (step' : ι → β → Parser (β × Bool))
    (hstep : ∀ a ws, keeps a ws → Follows L Prod.snd ws (KeepsRound keeps ends) (SameRound R)
      (step a) fun x : ι × { b // R a b } => step' x.1 x.2.1)
    {a : α} (a' : ι → β) {ws : List Word} (ha : keeps a ws) (hR : ∀ i, R a (a' i)) :
    Follows L (fun _ => false) ws ends R (iterate step a) fun i => iterate (step' i) (a' i) := by
  refine ⟨fun {t b u} ht hrun => ?_⟩
  obtain ⟨G, vs, hvs, hG, hruns⟩ := follows_repeatWithin hstep ha ht hrun
  exact ⟨G, vs, hvs, hG, fun i _ t' hH hsifts =>
    hruns i (hR i) hH hsifts (Nat.lt_succ_self t'.ahead.length)⟩

theorem many_more {c : Parser Bool} {p : Parser (List Element)} (hc : Peeks c) {t u v : Tokens}
    {done next es : List Element} {limit : Nat} (hmore : c t = .ok (true, t)) (hnext : p t = .ok (next, v))
    (h : repeatWithin (manyStep c p) limit (done ++ next) v = .ok (es, u)) :
    repeatWithin (manyStep c p) (limit + 1) done t = .ok (es, u) :=
  bind_run.2 ⟨_, v, (manyStep_run hc).2 ⟨hmore, .inl ⟨rfl, next, hnext, rfl⟩⟩, h⟩

theorem many_stop {c : Parser Bool} {p : Parser (List Element)} (hc : Peeks c) {t : Tokens}
    (hstop : c t = .ok (false, t)) (done : List Element) (limit : Nat) :
    repeatWithin (manyStep c p) (limit + 1) done t = .ok (done, t) :=
  bind_run.2 ⟨_, t, (manyStep_run hc).2 ⟨hstop, .inr ⟨rfl, rfl, rfl⟩⟩, rfl⟩

theorem Follows.many {c : Parser Bool} {p : Parser (List Element)} {q : ι → Parser (List Element)}
    (hc : Blind L c) (hp : FollowsAll L true p q) :
    FollowsAll L false (manyWhile c p) fun i => manyWhile c (q i) := by
  refine follows_iterate (fun i => manyStep c (q i)) (fun done ws (hdone : KeepsAll done ws) => ?_)
    (fun _ => []) rfl fun _ => Iff.rfl
  refine Follows.cond_at hc (.inl (Level.le_refl L)) ?_ ?_
  · refine Follows.bind (m := fun _ => false)
      ((hp.reindex Prod.fst).behind ws) ?_
      (.inl (Level.le_refl L)) fun _ _ _ => rfl
    rintro next _ ⟨vs, hnext, rfl⟩
    exact follows_pure rfl (keepsAll_append hdone hnext) fun x =>
      ⟨sameEmpty_append x.1.2.2 x.2.2, rfl⟩
  · exact follows_pure rfl hdone fun x => ⟨x.2.2, rfl⟩

theorem Follows.round {before : List Word} {p : Parser Node} {q : ι → Parser Node}
    (h : Follows L (fun _ => true) before KeepsNode anything p q) (more : Bool) :
    Follows L Prod.snd before (KeepsRound KeepsNode KeepsNode) (SameRound anything)
      (do return (← p, more)) fun i => (do return (← q i, more)) := by
  refine h.bind (m := fun _ => false) (fun n ws hn => ?_) (.inl (Level.le_refl L))
    fun _ _ _ => rfl
  refine follows_pure rfl ?_ fun _ => ⟨trivial, rfl⟩
  cases more <;> exact hn

/-- An operand that a loop goes on with. -/
theorem Follows.operand {p : Parser Node} {q : ι → Parser Node} {step : Node → Parser (Node × Bool)}
    (hp : FollowsNode L p q)
    (hstep : ∀ {κ : Type} {n : Node} {ws : List Word}, KeepsNode n ws → ∀ n' : κ → Node,
      Follows L Prod.snd ws (KeepsRound KeepsNode KeepsNode) (SameRound anything) (step n)
        fun i => step (n' i)) :
    FollowsNode L (p >>= iterate step) fun i => q i >>= iterate step := by
  refine hp.bind (m := fun _ => false) (fun n ws hn => ?_) (.inl (Level.le_refl L))
    fun _ _ _ => rfl
  exact follows_iterate (fun _ => step) (fun a _ ha => hstep ha fun
    x : (ι × { b : Node // anything n b }) × { b : Node // anything a b } => x.2.1) _ hn fun _ => trivial

end

end Codemod.Recipes.Semicolons.Sifted
