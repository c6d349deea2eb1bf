import Codemod.Java.Unit
import Codemod.Proofs.Java.Relabelling

/-!
Why parsers come to an end. A parser leaves a rest of the tokens that it was given, and what makes it
come to an end is that there are ever fewer of them: a loop goes on only behind a token that it took,
and a construct stands inside another one behind a token of that one. So on few tokens a parser need
not know what the constructs inside it do with many, and it is never stopped by a bound.
-/

namespace Codemod.Java

open Codemod.Tree

/-- Tokens are taken between one state and a later one; at least one where `moved` says so. -/
def Tokens.Advances (moved : Bool) (t u : Tokens) : Prop :=
  ∃ taken, t.Passes taken u ∧ (moved = true → taken ≠ [])

namespace Tokens.Advances

variable {b c : Bool} {t u v : Tokens}

theorem refl (t : Tokens) : t.Advances false t :=
  ⟨[], .refl t, nofun⟩

theorem trans (h : t.Advances b u) (h' : u.Advances c v) : t.Advances (b || c) v := by
  obtain ⟨taken, hpasses, htaken⟩ := h
  obtain ⟨taken', hpasses', htaken'⟩ := h'
  refine ⟨taken ++ taken', hpasses.trans hpasses', fun hmoved hnil => ?_⟩
  obtain ⟨rfl, rfl⟩ := List.append_eq_nil_iff.1 hnil
  rcases Bool.or_eq_true_iff.1 hmoved with hb | hc
  · exact htaken hb rfl
  · exact htaken' hc rfl

theorem weaken (h : t.Advances true u) : t.Advances b u := by
  obtain ⟨taken, hpasses, htaken⟩ := h
  exact ⟨taken, hpasses, fun _ => htaken rfl⟩

theorem length_le (h : t.Advances b u) : u.ahead.length ≤ t.ahead.length := by
  obtain ⟨taken, hpasses, _⟩ := h
  rw [hpasses.length]
  exact Nat.le_add_left _ _

theorem length_lt (h : t.Advances true u) : u.ahead.length < t.ahead.length := by
  obtain ⟨taken, hpasses, htaken⟩ := h
  have hpos := List.length_pos_iff.2 (htaken rfl)
  rw [hpasses.length]
  omega

end Tokens.Advances

namespace Parser

variable {α β : Type} {n : Nat} {b : Bool} {m : α → Bool}

/-- On fewer than `n` tokens the second parser does what the first one does. That one comes to an end
of its own accord, and where it succeeds it has taken tokens; at least one where `moved` says so of the
result. -/
def Runs (n : Nat) (moved : α → Bool) (p q : Parser α) : Prop :=
  ∀ t : Tokens, t.ahead.length < n →
    q t = p t ∧ (∀ a u, p t = .ok (a, u) → t.Advances (moved a) u) ∧
      ∀ place, p t ≠ .error (.stalled place)

/-- The parsers do the same on few tokens, and take at least one of them where `moved` says so. -/
abbrev Descends (n : Nat) (moved : Bool) (p q : Parser α) : Prop :=
  Runs n (fun _ => moved) p q

/-- A round of a loop, which asks for another one only behind a token that it took. -/
abbrev Rounds (n : Nat) (p q : Parser (α × Bool)) : Prop :=
  Runs n Prod.snd p q

theorem Runs.mono {p q : Parser α} (h : Runs (n + 1) m p q) : Runs n m p q :=
  fun t ht => h t (Nat.lt_succ_of_lt ht)

theorem Descends.weaken {p q : Parser α} (h : Descends n true p q) : Runs n m p q := by
  intro t ht
  obtain ⟨hsame, hok, hends⟩ := h t ht
  exact ⟨hsame, fun a u hrun => (hok a u hrun).weaken, hends⟩

theorem runs_bind_within {n' : Nat} {m' m'' : β → Bool} {p q : Parser α} {k l : α → Parser β}
    (hp : Runs n m p q)
    (hless : ∀ {t a u}, t.ahead.length < n → p t = .ok (a, u) → u.ahead.length < n')
    (hk : ∀ a, Runs n' m' (k a) (l a)) (hmoved : ∀ a x, m'' x = true → (m a || m' x) = true) :
    Runs n m'' (p >>= k) (q >>= l) := by
  intro t ht
  obtain ⟨hsame, hok, hends⟩ := hp t ht
  cases hrun : p t with
  | error e =>
      have hqrun : q t = .error e := hsame.trans hrun
      rw [bind_error hrun, bind_error hqrun]
      refine ⟨rfl, nofun, fun place herror => hends place ?_⟩
      rw [hrun, Except.error.inj herror]
  | ok x =>
      obtain ⟨a, u⟩ := x
      have hqrun : q t = .ok (a, u) := hsame.trans hrun
      rw [bind_ok hrun, bind_ok hqrun]
      obtain ⟨hsame', hok', hends'⟩ := hk a u (hless ht hrun)
      refine ⟨hsame', fun x v hx => ?_, hends'⟩
      obtain ⟨taken, hpasses, htaken⟩ := (hok a u hrun).trans (hok' x v hx)
      exact ⟨taken, hpasses, fun hx => htaken (hmoved a x hx)⟩

theorem Runs.bind {m' : β → Bool} {p q : Parser α} {k l : α → Parser β}
    (hp : Descends n false p q) (hk : ∀ a, Runs n m' (k a) (l a)) :
    Runs n m' (p >>= k) (q >>= l) :=
  runs_bind_within hp (fun ht hrun => ((hp _ ht).2.1 _ _ hrun).length_le.trans_lt ht) hk
    fun _ _ => id

theorem Runs.bind_moved {m' : β → Bool} {p q : Parser α} {k l : α → Parser β}
    (hp : Descends (n + 1) true p q) (hk : ∀ a, Descends n false (k a) (l a)) :
    Runs (n + 1) m' (p >>= k) (q >>= l) :=
  runs_bind_within hp
    (fun ht hrun => ((hp _ ht).2.1 _ _ hrun).length_lt.trans_le (Nat.le_of_lt_succ ht)) hk
    fun _ _ _ => rfl

theorem runs_pure {a : α} (h : m a = false) : Runs n m (pure a) (pure a) := by
  intro t _
  refine ⟨rfl, fun x u hx => ?_, nofun⟩
  obtain ⟨rfl, rfl⟩ := pure_run.1 hx
  exact h ▸ .refl _

theorem runs_then_pure {m' : β → Bool} {p q : Parser α} (h : Descends n b p q) (f : α → β)
    (hmoved : ∀ x, m' x = true → b = true) :
    Runs n m' (p >>= fun a => pure (f a)) (q >>= fun a => pure (f a)) :=
  runs_bind_within h (fun ht hrun => ((h _ ht).2.1 _ _ hrun).length_le.trans_lt ht)
    (fun _ => runs_pure (m := fun _ => false) rfl) fun _ x hx => by rw [hmoved x hx]; rfl

theorem Runs.then_pure {p q : Parser α} (h : Descends n b p q) (f : α → β) :
    Descends n b (p >>= fun a => pure (f a)) (q >>= fun a => pure (f a)) :=
  runs_then_pure h f fun _ => id

theorem runs_unsupported {construct : Construct} :
    Runs n m (unsupported construct) (unsupported construct) :=
  fun _ _ => ⟨rfl, fun _ _ h => absurd h fail_run, nofun⟩

theorem runs_expected {wanted : Wanted} : Runs n m (expected wanted) (expected wanted) :=
  fun _ _ => ⟨rfl, fun _ _ h => absurd h expected_run, nofun⟩

theorem descends_test {p : Token → Bool} {k : Nat} : Descends n false (test p k) (test p k) := by
  intro t _
  refine ⟨rfl, fun x u h => ?_, nofun⟩
  cases h
  exact .refl _

theorem descends_takeIf {p : Token → Bool} {wanted : Wanted} :
    Descends n b (takeIf p wanted) (takeIf p wanted) := by
  refine Descends.weaken fun t _ => ⟨rfl, fun a u h => ?_, fun place h => ?_⟩
  · exact ⟨[a], (takeIf_passes h).1, fun _ => List.cons_ne_nil a []⟩
  · obtain ⟨ahead, last⟩ := t
    cases ahead with
    | nil => cases h
    | cons l rest =>
        rw [takeIf_cons] at h
        split_ifs at h
        cases h

theorem Runs.ite {x : Bool} {p p' q q' : Parser α} (hp : Runs n m p q) (hp' : Runs n m p' q') :
    Runs n m (if x then p else p') (if x then q else q') := by
  cases x
  · exact hp'
  · exact hp

theorem Runs.cond {x x' : Parser Bool} {p p' q q' : Parser α} (hx : Descends n false x x')
    (hp : Runs n m p q) (hp' : Runs n m p' q') :
    Runs n m (do if ← x then p else p') (do if ← x' then q else q') :=
  Runs.bind hx fun _ => hp.ite hp'

theorem Runs.not {x x' : Parser Bool} (hx : Descends n false x x') :
    Descends n false (do return !(← x)) (do return !(← x')) :=
  Runs.bind hx fun _ => runs_pure rfl

theorem Runs.foresee {m : Bool → Bool} {p q : Parser Bool} (hp : Runs n m p q) :
    Descends n false (foresee p) (foresee q) := by
  intro t ht
  obtain ⟨hsame, -, -⟩ := hp t ht
  rw [Parser.foresee, Parser.foresee, hsame]
  refine ⟨rfl, fun a u h => ?_, fun place h => ?_⟩
  · cases hrun : p t <;> rw [hrun] at h <;> cases h <;> exact .refl _
  · cases hrun : p t <;> rw [hrun] at h <;> cases h

/-! ### Loops -/

theorem Runs.round {p q : Parser α} (h : Descends n true p q) (f : α → β × Bool) :
    Rounds n (p >>= fun a => pure (f a)) (q >>= fun a => pure (f a)) :=
  runs_then_pure h f fun _ _ => rfl

theorem descends_repeatWithin {step step' : α → Parser (α × Bool)}
    (hstep : ∀ a, Rounds n (step a) (step' a)) {limit : Nat} (a : α) {t : Tokens}
    (ht : t.ahead.length < n) (hlimit : t.ahead.length < limit) :
    repeatWithin step' limit a t = repeatWithin step limit a t ∧
      (∀ x u, repeatWithin step limit a t = .ok (x, u) → t.Advances false u) ∧
        ∀ place, repeatWithin step limit a t ≠ .error (.stalled place) := by
  induction limit generalizing a t with
  | zero => exact absurd hlimit (Nat.not_lt_zero _)
  | succ limit ih =>
      obtain ⟨hsame, hok, hends⟩ := hstep a t ht
      rw [repeatWithin, repeatWithin]
      cases hrun : step a t with
      | error e =>
          rw [bind_error hrun, bind_error (hsame.trans hrun)]
          refine ⟨rfl, nofun, fun place herror => hends place ?_⟩
          rw [hrun, Except.error.inj herror]
      | ok x =>
          obtain ⟨⟨a', more⟩, u⟩ := x
          have hmoved := hok _ _ hrun
          rw [bind_ok hrun, bind_ok (hsame.trans hrun)]
          cases more with
          | false =>
              refine ⟨rfl, fun x v hx => ?_, nofun⟩
              obtain ⟨-, rfl⟩ := pure_run.1 hx
              exact hmoved
          | true =>
              have hfewer := hmoved.length_lt
              obtain ⟨hsame', hok', hends'⟩ := ih a' (show u.ahead.length < n by omega)
                (show u.ahead.length < limit by omega)
              refine ⟨hsame', fun x v hx => ?_, hends'⟩
              obtain ⟨taken, hpasses, _⟩ := hmoved.trans (hok' x v hx)
              exact ⟨taken, hpasses, nofun⟩

theorem descends_iterate {step step' : α → Parser (α × Bool)}
    (hstep : ∀ a, Rounds n (step a) (step' a)) (a : α) :
    Descends n false (iterate step a) (iterate step' a) :=
  fun t ht => descends_repeatWithin hstep a ht (Nat.lt_succ_self t.ahead.length)

theorem rounds_manyStep {x x' : Parser Bool} {p q : Parser (List Element)}
    (hx : Descends n false x x') (hp : Descends n true p q) (done : List Element) :
    Rounds n (manyStep x p done) (manyStep x' q done) :=
  Runs.cond hx (Runs.round hp fun next => (done ++ next, true)) (runs_pure rfl)

theorem rounds_itemStep {delimiter : Delimiter} {stop stop' : Parser Bool} {item item' : Parser Node}
    (hstop : Descends n false stop stop') (hitem : Descends n false item item')
    (done : List (Node × Option Token)) :
    Rounds n (itemStep delimiter stop item done) (itemStep delimiter stop' item' done) :=
  Runs.cond hstop (runs_pure rfl) <| Runs.bind hitem fun node =>
    Runs.cond descends_test (Runs.round descends_takeIf fun t => (done ++ [(node, some t)], true))
      (runs_pure rfl)

/-! ### Parts -/

section
variable {ps qs : List (Parser (List Element))} {p q : Parser (List Element)} {x x' : Parser Bool}

theorem Runs.many (hx : Descends n false x x') (hp : Descends n true p q) :
    Descends n false (manyWhile x p) (manyWhile x' q) :=
  descends_iterate (rounds_manyStep hx hp) []

theorem Runs.optional (hx : Descends n false x x') (hp : Descends n false p q) :
    Descends n false (optional x p) (optional x' q) :=
  Runs.cond hx hp (runs_pure rfl)

theorem Runs.separated {delimiter : Delimiter} {stop stop' : Parser Bool} {item item' : Parser Node}
    (hstop : Descends n false stop stop') (hitem : Descends n false item item') :
    Descends n false (separated delimiter stop item) (separated delimiter stop' item') :=
  Runs.bind (descends_iterate (rounds_itemStep hstop hitem) []) fun _ => runs_pure rfl

theorem Runs.one {p q : Parser Node} (hp : Descends n b p q) : Descends n b (one p) (one q) :=
  hp.then_pure fun x => [Element.node x]

theorem Runs.tok {p q : Parser Token} (hp : Descends n b p q) : Descends n b (tok p) (tok q) :=
  hp.then_pure fun t => [Element.token t]

/-- Parts that do the same one by one; behind one that takes a token there are fewer tokens. -/
inductive DescendsAll : Nat → Bool → List (Parser (List Element)) →
    List (Parser (List Element)) → Prop where
  | nil {n : Nat} : DescendsAll n false [] []
  | cons {n : Nat} {b : Bool} {p q : Parser (List Element)} {ps qs : List (Parser (List Element))}
      (h : Descends n false p q) (hs : DescendsAll n b ps qs) : DescendsAll n b (p :: ps) (q :: qs)
  | moved {n : Nat} {b : Bool} {p q : Parser (List Element)} {ps qs : List (Parser (List Element))}
      (h : Descends (n + 1) true p q) (hs : DescendsAll n false ps qs) :
      DescendsAll (n + 1) b (p :: ps) (q :: qs)

theorem DescendsAll.parts (h : DescendsAll n b ps qs) : Descends n b (parts ps) (parts qs) := by
  induction h with
  | nil => exact runs_pure rfl
  | cons hp _ ih => exact Runs.bind hp fun first => ih.then_pure fun others => first ++ others
  | moved hp _ ih =>
      exact Runs.bind_moved hp fun first => ih.then_pure fun others => first ++ others

theorem DescendsAll.build (h : DescendsAll n b ps qs) (kind : Kind) :
    Descends n b (build kind ps) (build kind qs) :=
  h.parts.then_pure fun children => Node.hoisted (.java kind) children

end

end Parser

end Codemod.Java
