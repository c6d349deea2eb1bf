import Codemod.Proofs.Java.Items

/-!
The last token that a parser takes. What a parser for statements or members takes ends with a
semicolon or a brace, and what one for expressions takes ends with no slash.
-/

namespace Codemod.Java

open Codemod.Tree

namespace Tokens

/-- The last token between two states passes the test. -/
def Ended (p : Token → Bool) (start finish : Tokens) : Prop :=
  ∃ (front : List Lexed) (lexed : Lexed),
    start.ahead = front ++ lexed :: finish.ahead ∧ p lexed.token = true

variable {p : Token → Bool} {t u v : Tokens}

theorem Ended.behind {taken : List Token} (hpasses : t.Passes taken u) (h : u.Ended p v) :
    t.Ended p v := by
  obtain ⟨_, front, hfront, _⟩ := hpasses
  obtain ⟨front', lexed, hlexed, hp⟩ := h
  exact ⟨front ++ front', lexed, by rw [hfront, hlexed, List.append_assoc], hp⟩

theorem Ended.trans (h : t.Ended p u) (h' : u.Ended p v) : t.Ended p v := by
  obtain ⟨front, lexed, hfront, _⟩ := h
  obtain ⟨front', lexed', hfront', hp⟩ := h'
  exact ⟨front ++ lexed :: front', lexed', by rw [hfront, hfront']; simp, hp⟩

theorem Ended.mono {q : Token → Bool} (hq : ∀ x, p x = true → q x = true) (h : t.Ended p u) :
    t.Ended q u := by
  obtain ⟨front, lexed, hfront, hp⟩ := h
  exact ⟨front, lexed, hfront, hq _ hp⟩

theorem Ended.genuine (h : t.Ended p u) (ht : t.Genuine) : u.Genuine := by
  obtain ⟨front, lexed, hfront, _⟩ := h
  exact fun x hx => ht x (by rw [hfront]; simp [hx])

end Tokens

/-- A node ends with the last token that was taken for it. -/
theorem endsWith_of_grown {p : Token → Bool} {t u : Tokens} {n : Node} (h : Grown t n u)
    (hended : t.Ended p u) : EndsWith p n := by
  obtain ⟨_, taken, htaken, hlexemes⟩ := h.passes
  obtain ⟨front, lexed, hfront, hp⟩ := hended
  rw [htaken, List.append_cons] at hfront
  obtain rfl := List.append_cancel_right hfront
  exact ⟨front.map Lexed.token, lexed.token, by rw [← hlexemes]; simp, hp⟩

namespace Parser

variable {α β : Type} {p : Token → Bool}

/-- Each success of the parser on genuine tokens relates the tokens ahead and the tokens left. -/
def Spans (R : Tokens → Tokens → Prop) (q : Parser α) : Prop :=
  ∀ t a u, t.Genuine → q t = .ok (a, u) → R t u

/-- The last token that the parser takes passes the test, and it takes one. -/
abbrev Ends (p : Token → Bool) : Parser α → Prop :=
  Spans (Tokens.Ended p)

/-- The last token that the parser takes passes the test, if it takes any. -/
abbrev MayEnd (p : Token → Bool) : Parser α → Prop :=
  Spans fun t u => u = t ∨ t.Ended p u

/-- The parser only takes tokens from the front. -/
abbrev Moves : Parser α → Prop :=
  Spans fun t u => ∃ taken, t.Passes taken u

section
variable {R : Tokens → Tokens → Prop}

theorem Spans.cond {c : Parser Bool} {q r : Parser α} (hc : Peeks c) (hq : Spans R q)
    (hr : Spans R r) : Spans R (do if ← c then q else r) := by
  intro t a u ht h
  obtain ⟨b, v, hb, h⟩ := bind_run.1 h
  cases hc hb
  cases b
  · exact hr t a u ht h
  · exact hq t a u ht h

theorem Spans.ite {c : Bool} {q r : Parser α} (hq : Spans R q) (hr : Spans R r) :
    Spans R (if c then q else r) := by
  cases c
  · exact hr
  · exact hq

theorem Spans.fail {error : Nat → ParseError} : Spans R (Parser.fail error : Parser α) :=
  fun _ _ _ _ h => absurd h fail_run

theorem Spans.expected {wanted : Wanted} : Spans R (Parser.expected wanted : Parser α) :=
  fun _ _ _ _ h => absurd h expected_run

end

theorem moves_of_yields {q : Parser (List Element)} (h : Yields q) : Moves q :=
  fun _ _ _ ht hq => ⟨_, (h ht hq).passes⟩

theorem moves_of_grows {q : Parser Node} (h : Grows q) : Moves (one q) :=
  moves_of_yields (yields_one h)

theorem moves_tok {q : Token → Bool} {wanted : Wanted} : Moves (tok (takeIf q wanted)) :=
  moves_of_yields yields_tok

theorem moves_takeIf {q : Token → Bool} {wanted : Wanted} : Moves (takeIf q wanted) :=
  fun _ _ _ _ h => ⟨_, (takeIf_passes h).1⟩

theorem moves_pure {a : α} : Moves (pure a) := by
  intro t b u _ h
  cases h
  exact ⟨[], .refl t⟩

theorem moves_peeks {c : Parser Bool} (hc : Peeks c) : Moves c := by
  intro t b u _ h
  cases hc h
  exact ⟨[], .refl t⟩

theorem moves_cons {q : Parser (List Element)} {qs : List (Parser (List Element))} (hq : Moves q)
    (hqs : Moves (parts qs)) : Moves (parts (q :: qs)) := by
  intro t es u ht h
  obtain ⟨first, v, others, hfirst, hothers, rfl⟩ := parts_cons_run.1 h
  obtain ⟨taken, hpasses⟩ := hq _ _ _ ht hfirst
  obtain ⟨taken', hpasses'⟩ := hqs _ _ _ (hpasses.genuine ht) hothers
  exact ⟨taken ++ taken', hpasses.trans hpasses'⟩

theorem Ends.mono {p' : Token → Bool} {q : Parser α} (hp : ∀ t, p t = true → p' t = true)
    (h : Ends p q) : Ends p' q :=
  fun t a u ht hq => (h t a u ht hq).mono hp

theorem Ends.may {q : Parser α} (h : Ends p q) : MayEnd p q :=
  fun t a u ht hq => .inr (h t a u ht hq)

theorem mayEnd_pure {a : α} : MayEnd p (pure a) := by
  intro t b u _ h
  cases h
  exact .inl rfl

theorem Ends.bind {q : Parser α} {f : α → Parser β} (hq : Ends p q) (hf : ∀ a, MayEnd p (f a)) :
    Ends p (q >>= f) := by
  intro t b u ht h
  obtain ⟨a, v, ha, h⟩ := bind_run.1 h
  have hfirst := hq t a v ht ha
  rcases hf a v b u (hfirst.genuine ht) h with rfl | hrest
  · exact hfirst
  · exact hfirst.trans hrest

theorem MayEnd.bind {q : Parser α} {f : α → Parser β} (hq : MayEnd p q)
    (hf : ∀ a, MayEnd p (f a)) : MayEnd p (q >>= f) := by
  intro t b u ht h
  obtain ⟨a, v, ha, hrest⟩ := bind_run.1 h
  rcases hq t a v ht ha with rfl | hfirst
  · exact hf a v b u ht hrest
  · rcases hf a v b u (hfirst.genuine ht) hrest with rfl | hlast
    · exact .inr hfirst
    · exact .inr (hfirst.trans hlast)

theorem Moves.bind {q : Parser α} {f : α → Parser β} (hq : Moves q) (hf : ∀ a, Ends p (f a)) :
    Ends p (q >>= f) := by
  intro t b u ht h
  obtain ⟨a, v, ha, h⟩ := bind_run.1 h
  obtain ⟨taken, hpasses⟩ := hq t a v ht ha
  exact (hf a v b u (hpasses.genuine ht) h).behind hpasses

theorem Ends.returns {q : Parser α} {f : α → β} (h : Ends p q) :
    Ends p (do return f (← q)) :=
  h.bind fun _ => mayEnd_pure

theorem ends_tok {q : Token → Bool} {wanted : Wanted} (h : ∀ t, q t = true → p t = true) :
    Ends p (tok (takeIf q wanted)) := by
  refine Ends.bind (fun t a u _ htake => ?_) fun _ => mayEnd_pure
  obtain ⟨lexed, rest, hahead, rfl, rfl, hq⟩ := takeIf_run.1 htake
  exact ⟨[], lexed, by rw [hahead]; rfl, h _ hq⟩

theorem ends_one {q : Parser Node} (h : Ends p q) : Ends p (one q) :=
  Ends.returns h

theorem mayEnd_optional {c : Parser Bool} {q : Parser (List Element)} (hc : Peeks c)
    (hq : Ends p q) : MayEnd p (optional c q) :=
  Spans.cond hc hq.may mayEnd_pure

/-- A part ends as asked for, and so do those behind it that take anything. -/
theorem ends_cons {q : Parser (List Element)} {qs : List (Parser (List Element))} (hq : Ends p q)
    (hqs : MayEnd p (parts qs)) : Ends p (parts (q :: qs)) :=
  hq.bind fun _ => hqs.bind fun _ => mayEnd_pure

theorem ends_behind {q : Parser (List Element)} {qs : List (Parser (List Element))} (hq : Moves q)
    (hqs : Ends p (parts qs)) : Ends p (parts (q :: qs)) :=
  hq.bind fun _ => hqs.returns

theorem mayEnd_cons {q : Parser (List Element)} {qs : List (Parser (List Element))}
    (hq : MayEnd p q) (hqs : MayEnd p (parts qs)) : MayEnd p (parts (q :: qs)) :=
  hq.bind fun _ => hqs.bind fun _ => mayEnd_pure

theorem ends_last {q : Parser (List Element)} (hq : Ends p q) : Ends p (parts [q]) :=
  ends_cons hq mayEnd_pure

theorem mayEnd_last {q : Parser (List Element)} (hq : MayEnd p q) : MayEnd p (parts [q]) :=
  mayEnd_cons hq mayEnd_pure

theorem ends_build {k : Kind} {qs : List (Parser (List Element))} (h : Ends p (parts qs)) :
    Ends p (build k qs) :=
  h.returns

/-! ### Loops -/

theorem ends_iterate {step : α → Parser (α × Bool)} {q : Parser α} (hq : Ends p q)
    (hstep : ∀ a, MayEnd p (step a)) : Ends p (q >>= iterate step) := by
  intro t b u ht h
  obtain ⟨a, v, ha, h⟩ := bind_run.1 h
  have hround {a b : α} {more : Bool} {w x : Tokens} (hw : t.Ended p w)
      (hrun : step a w = .ok ((b, more), x)) : t.Ended p x := by
    rcases hstep _ _ _ _ (hw.genuine ht) hrun with rfl | hx
    · exact hw
    · exact hw.trans hx
  exact iterate_induct (P := fun _ w => t.Ended p w) (Q := fun _ w => t.Ended p w) hround hround
    (hq _ _ _ ht ha) h

theorem mayEnd_manyWhile {c : Parser Bool} {q : Parser (List Element)} (hc : Peeks c)
    (hq : Ends p q) : MayEnd p (manyWhile c q) := by
  intro t es u ht h
  refine iterate_induct (P := fun _ v => v = t ∨ t.Ended p v)
    (Q := fun _ v => v = t ∨ t.Ended p v) ?_ ?_ (.inl rfl) h
  · intro done v done' w hv hstep
    obtain ⟨_, ⟨_, next, hnext, rfl⟩ | ⟨⟨⟩, _⟩⟩ := (manyStep_run hc).1 hstep
    rcases hv with rfl | hv
    · exact .inr (hq _ _ _ ht hnext)
    · exact .inr (hv.trans (hq _ _ _ (hv.genuine ht) hnext))
  · intro done v done' w hv hstep
    obtain ⟨_, ⟨⟨⟩, _⟩ | ⟨_, rfl, rfl⟩⟩ := (manyStep_run hc).1 hstep
    exact hv

/-- What the parser ensures of each node holds of all that a loop collects. -/
theorem manyWhile_all {c : Parser Bool} {q : Parser Node} {P : Node → Prop} (hc : Peeks c)
    (hq : Ensures (fun t n u => Grown t n u ∧ P n) q) {t u : Tokens} {es : List Element}
    (ht : t.Genuine) (h : manyWhile c (one q) t = .ok (es, u)) : ∀ n, .node n ∈ es → P n := by
  have hstart : t.Genuine ∧ ∀ n, Element.node n ∈ [] → P n := ⟨ht, nofun⟩
  refine iterate_induct (P := fun done v => v.Genuine ∧ ∀ n, Element.node n ∈ done → P n)
    (Q := fun done _ => ∀ n, Element.node n ∈ done → P n) ?_ ?_ hstart h
  · rintro done v done' w ⟨hv, hdone⟩ hstep
    obtain ⟨_, ⟨_, next, hnext, rfl⟩ | ⟨⟨⟩, _⟩⟩ := (manyStep_run hc).1 hstep
    obtain ⟨n, hn, rfl⟩ := one_run.1 hnext
    obtain ⟨hgrown, hP⟩ := hq hv hn
    refine ⟨hgrown.passes.genuine hv, fun m hm => ?_⟩
    rcases List.mem_append.1 hm with hm | hm
    · exact hdone m hm
    · cases List.mem_singleton.1 hm
      exact hP
  · rintro done v done' w ⟨_, hdone⟩ hstep
    obtain ⟨_, ⟨⟨⟩, _⟩ | ⟨_, rfl, rfl⟩⟩ := (manyStep_run hc).1 hstep
    exact hdone

theorem manyWhile_first {c : Parser Bool} {q : Parser Node} (hc : Peeks c) {t u : Tokens}
    {n : Node} {es : List Element} (h : manyWhile c (one q) t = .ok (.node n :: es, u)) :
    ∃ v, q t = .ok (n, v) := by
  let First (done : List Element) : Prop :=
    ∃ n es v, done = .node n :: es ∧ q t = .ok (n, v)
  have hrun : .node n :: es = [] ∨ First (.node n :: es) := by
    refine iterate_induct (P := fun done v => done = [] ∧ v = t ∨ First done)
      (Q := fun done _ => done = [] ∨ First done) ?_ ?_ (.inl ⟨rfl, rfl⟩) h
    · intro done v done' w hdone hstep
      obtain ⟨_, ⟨_, next, hnext, rfl⟩ | ⟨⟨⟩, _⟩⟩ := (manyStep_run hc).1 hstep
      obtain ⟨m, hm, rfl⟩ := one_run.1 hnext
      obtain ⟨rfl, rfl⟩ | ⟨n, es, x, rfl, hn⟩ := hdone
      · exact .inr ⟨m, [], w, rfl, hm⟩
      · exact .inr ⟨n, es ++ [.node m], x, rfl, hn⟩
    · intro done v done' w hdone hstep
      obtain ⟨_, ⟨⟨⟩, _⟩ | ⟨_, rfl, rfl⟩⟩ := (manyStep_run hc).1 hstep
      exact hdone.imp_left And.left
  obtain ⟨m, es', v, heq, hm⟩ := hrun.resolve_left nofun
  cases heq
  exact ⟨v, hm⟩

theorem ends_delimited {k : Kind} {opening closing : String} {separator : Delimiter}
    {item : Parser Node} (hitem : Grows item) (h : Ends p (tok (take closing))) :
    Ends p (delimited k opening closing separator item) := by
  refine ends_build (ends_behind (moves_of_yields yields_tok) (ends_behind ?_ (ends_last h)))
  intro t es u ht hrun
  obtain ⟨items, v, hitems, hrun⟩ := bind_run.1 hrun
  cases hrun
  exact ⟨_, (listed_of_separated (.of_kind fun _ => True) peeks_sees
    (fun ht hn => ⟨hitem ht hn, trivial⟩) ht hitems).passes⟩

/-! ### The two tests -/

theorem clause_take {text : String} (h : text = ";" ∨ text = "\x7d") :
    Ends endsClause (tok (take text)) :=
  ends_tok fun t ht => by simpa [endsClause, text_of_isSign ht] using h

theorem isNoSlash_of_endsClause (t : Token) (h : endsClause t = true) : isNoSlash t = true := by
  have htext : t.text = ";" ∨ t.text = "\x7d" := by simpa [endsClause] using h
  rcases htext with htext | htext <;> simp [isNoSlash, htext]

theorem noSlash_take {text : String} (h : text ≠ "/") : Ends isNoSlash (tok (take text)) :=
  ends_tok fun t ht => by simp [isNoSlash, text_of_isSign ht, h]

end Parser

end Codemod.Java
