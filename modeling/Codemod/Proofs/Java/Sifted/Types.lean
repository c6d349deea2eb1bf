import Codemod.Proofs.Java.GrammarDescent
import Codemod.Proofs.Java.Sifted.Parsers

/-!
A type that is looked for ahead of the parser. Two texts that have the same words up to tokens that no
type can go on with look the same to the grammar of types, whatever stands behind these tokens.
-/

namespace Codemod.Recipes.Semicolons.Sifted

open Codemod.Tree Codemod.Java Codemod.Java.Parser Codemod.Java.Grammar

/-- The token can stand in a type. -/
def isTypeToken (t : Token) : Bool :=
  isIdentifier t || isPrimitive t ||
    isOneOf [".", "<", ">", ",", "?", "extends", "super", "[", "]"] t

theorem leadless_isTypeToken : Leadless isTypeToken :=
  fun _ => rfl

/-- The texts have tokens of types with the same words in front of two others. -/
inductive Beside (s s' : Tokens) : Tokens → Tokens → Prop where
  | stop : Beside s s' s s'
  | cons {l l' : Lexed} {t t' : Tokens} (hword : l'.token.word = l.token.word)
      (htype : isTypeToken l.token = true)
      (hshift : isSign l.token ">" = true → adjacent t'.ahead = adjacent t.ahead) (h : Beside s s' t t') :
      Beside s s' (t.cons l) (t'.cons l')

/-- No type can go on with the token in front. -/
def Dull (t : Tokens) : Prop :=
  isTypeToken (t.nth 0) = false

/-- Only tokens of types pass the test, whatever trivia stands in front of them. -/
structure TypeTest (p : Token → Bool) : Prop where
  leadless : Leadless p
  type : ∀ t, p t = true → isTypeToken t = true

/-- Where the first parser succeeds on one of the texts, the second one succeeds on the other with a
related result, and the texts are left as they were compared. -/
structure Echoes {α β : Type} (s s' : Tokens) (R : α → β → Prop) (p : Parser α) (q : Parser β) :
    Prop where
  run : ∀ {t t' a u}, Beside s s' t t' → p t = .ok (a, u) →
    ∃ b u', q t' = .ok (b, u') ∧ Beside s s' u u' ∧ R a b ∧ u.ahead.length ≤ t.ahead.length

namespace Beside

variable {s s' t t' u u' : Tokens}

theorem symm (h : Beside s s' t t') : Beside s' s t' t := by
  induction h with
  | stop => exact .stop
  | @cons l l' _ _ hword htype hshift _ ih =>
      have hsign := (leadless_isSign ">").eq hword
      refine .cons hword.symm ?_ (fun h => (hshift (hsign.symm.trans h)).symm) ih
      rwa [leadless_isTypeToken.eq hword]

theorem length (h : Beside s s' t t') :
    t.ahead.length + s'.ahead.length = t'.ahead.length + s.ahead.length := by
  induction h with
  | stop => exact Nat.add_comm _ _
  | cons _ _ _ _ ih =>
      simp only [Tokens.cons, List.length_cons]
      omega

theorem front (h : Beside s s' t t') (hs : Dull s) (hs' : Dull s') {p : Token → Bool}
    (hp : TypeTest p) : p (t'.nth 0) = p (t.nth 0) := by
  cases h with
  | stop =>
      have hnot : ∀ {t : Tokens}, Dull t → p (t.nth 0) = false := fun ht => by
        rw [← Bool.not_eq_true]
        intro hyes
        rw [Dull, hp.type _ hyes] at ht
        cases ht
      rw [hnot hs, hnot hs']
  | cons hword _ _ _ => exact hp.leadless.eq hword

end Beside

theorem typeTest_isSign {text : String}
    (h : text ∈ [".", "<", ">", ",", "?", "extends", "super", "[", "]"]) :
    TypeTest (isSign · text) where
  leadless := leadless_isSign text
  type t ht := by
    rw [isTypeToken, Bool.or_eq_true]
    exact .inr (List.any_eq_true.2 ⟨text, h, ht⟩)

theorem typeTest_isIdentifier : TypeTest isIdentifier where
  leadless _ := rfl
  type t ht := by rw [isTypeToken, ht]; rfl

theorem typeTest_isPrimitive : TypeTest isPrimitive where
  leadless _ := rfl
  type t ht := by rw [isTypeToken, ht, Bool.or_true]; rfl

theorem typeTest_isOneOf : TypeTest (isOneOf ["extends", "super"]) where
  leadless := leadless_isOneOf _
  type t ht := by
    obtain ⟨text, htext, ht⟩ := List.any_eq_true.1 ht
    exact (typeTest_isSign (by simp only [List.mem_cons] at htext ⊢; tauto)).type t ht

/-! ### Ways to combine parsers -/

section
variable {α β γ δ : Type} {s s' : Tokens} {R : α → β → Prop} {R' : γ → δ → Prop}

theorem echoes_pure {a : α} {b : β} (h : R a b) : Echoes s s' R (pure a) (pure b) := by
  refine ⟨fun {t t' a' u} ht hrun => ?_⟩
  obtain ⟨rfl, rfl⟩ := pure_run.1 hrun
  exact ⟨b, t', rfl, ht, h, le_rfl⟩

theorem echoes_fail {error : Nat → ParseError} {q : Parser β} : Echoes s s' R (fail error) q :=
  ⟨fun _ h => absurd h fail_run⟩

theorem Echoes.bind {p : Parser α} {q : Parser β} {k : α → Parser γ} {l : β → Parser δ}
    (hp : Echoes s s' R p q) (hk : ∀ a b, R a b → Echoes s s' R' (k a) (l b)) :
    Echoes s s' R' (p >>= k) (q >>= l) := by
  refine ⟨fun {t t' c u} ht hrun => ?_⟩
  obtain ⟨a, v, ha, hc⟩ := bind_run.1 hrun
  obtain ⟨b, v', hb, hv, hR, hle⟩ := hp.run ht ha
  obtain ⟨d, u', hd, hu, hR', hle'⟩ := (hk a b hR).run hv hc
  exact ⟨d, u', bind_run.2 ⟨b, v', hb, hd⟩, hu, hR', hle'.trans hle⟩

theorem Echoes.ite {x y : Bool} {p p' : Parser α} {q q' : Parser β} (hxy : x = y)
    (hp : Echoes s s' R p q) (hp' : Echoes s s' R p' q') :
    Echoes s s' R (if x then p else p') (if y then q else q') := by
  subst hxy
  cases x
  · exact hp'
  · exact hp

theorem Echoes.cond {c c' : Parser Bool} {p p' : Parser α} {q q' : Parser β}
    (hc : Echoes s s' Eq c c') (hp : Echoes s s' R p q) (hp' : Echoes s s' R p' q') :
    Echoes s s' R (do if ← c then p else p') (do if ← c' then q else q') :=
  hc.bind fun _ _ h => hp.ite h hp'

theorem echoes_repeatWithin {step : α → Parser (α × Bool)} {step' : β → Parser (β × Bool)}
    (hstep : ∀ a b, R a b → Echoes s s' (fun x y => R x.1 y.1 ∧ x.2 = y.2) (step a) (step' b))
    (hless : ∀ {a t t' b u}, Beside s s' t t' → step a t = .ok ((b, true), u) →
      u.ahead.length < t.ahead.length)
    {limit limit' : Nat} {a : α} {b : β} (hR : R a b) {t t' u : Tokens} {c : α}
    (ht : Beside s s' t t') (hlimit : t'.ahead.length < limit')
    (h : repeatWithin step limit a t = .ok (c, u)) :
    ∃ d u', repeatWithin step' limit' b t' = .ok (d, u') ∧ Beside s s' u u' ∧ R c d ∧
      u.ahead.length ≤ t.ahead.length := by
  induction limit generalizing limit' a b t t' with
  | zero => exact absurd h fail_run
  | succ limit ih =>
      obtain ⟨limit', rfl⟩ := Nat.exists_eq_succ_of_ne_zero (Nat.ne_zero_of_lt hlimit)
      obtain ⟨⟨a', more⟩, v, hround, h⟩ := bind_run.1 h
      obtain ⟨⟨b', more'⟩, v', hround', hv, ⟨hR', hmore⟩, hle⟩ := (hstep a b hR).run ht hround
      cases hmore
      cases more with
      | false =>
          cases h
          exact ⟨b', v', bind_run.2 ⟨_, v', hround', rfl⟩, hv, hR', hle⟩
      | true =>
          have hfewer := hless ht hround
          have hlength := ht.length
          have hlength' := hv.length
          obtain ⟨d, u', hrest, hu, hR', hle'⟩ := ih hR' hv (show v'.ahead.length < limit' by omega) h
          exact ⟨d, u', bind_run.2 ⟨_, v', hround', hrest⟩, hu, hR', hle'.trans hle⟩

theorem echoes_iterate {step : α → Parser (α × Bool)} {step' : β → Parser (β × Bool)}
    (hstep : ∀ a b, R a b → Echoes s s' (fun x y => R x.1 y.1 ∧ x.2 = y.2) (step a) (step' b))
    (hless : ∀ {a t t' b u}, Beside s s' t t' → step a t = .ok ((b, true), u) →
      u.ahead.length < t.ahead.length)
    {a : α} {b : β} (hR : R a b) : Echoes s s' R (iterate step a) (iterate step' b) :=
  ⟨fun {_ t' _ _} ht hrun =>
    echoes_repeatWithin hstep hless hR ht (Nat.lt_succ_self t'.ahead.length) hrun⟩

theorem Echoes.then_pure {p : Parser α} {q : Parser β} (hp : Echoes s s' R p q) (f : α → γ) (f' : β → δ) :
    Echoes s s' anything (p >>= fun a => pure (f a)) (q >>= fun b => pure (f' b)) :=
  hp.bind fun _ _ _ => echoes_pure trivial

end

/-! ### Tests and tokens -/

section
variable {s s' : Tokens} (hs : Dull s) (hs' : Dull s') {p r : Token → Bool}
include hs hs'

theorem echoes_test (hp : TypeTest p) : Echoes s s' Eq (test p) (test p) := by
  refine ⟨fun {t t' b u} ht hrun => ?_⟩
  cases hrun
  exact ⟨p (t'.nth 0), t', rfl, ht, (ht.front hs hs' hp).symm, le_rfl⟩

theorem echoes_second (hr : TypeTest r) (hp : TypeTest p) (b : Bool) :
    Echoes s s' Eq (do if ← test r then test p 1 else pure b)
      (do if ← test r then test p 1 else pure b) := by
  refine ⟨fun {t t' c u} ht hrun => ?_⟩
  have hfront := ht.front hs hs' hr
  obtain ⟨yes, v, hyes, hrun⟩ := bind_run.1 hrun
  cases hyes
  cases ht with
  | stop =>
      have hno : r (s.nth 0) = false := by
        rw [← Bool.not_eq_true]
        intro hyes
        rw [Dull, hr.type _ hyes] at hs
        cases hs
      rw [hno] at hrun hfront
      obtain ⟨rfl, rfl⟩ := pure_run.1 hrun
      refine ⟨c, s', bind_run.2 ⟨false, s', ?_, rfl⟩, .stop, rfl, le_rfl⟩
      rw [test_run, hfront]
  | @cons l l' w w' hword htype hshift hw =>
      have ht := Beside.cons hword htype hshift hw
      cases hyes : r ((w.cons l).nth 0) with
      | false =>
          rw [hyes] at hrun hfront
          obtain ⟨rfl, rfl⟩ := pure_run.1 hrun
          refine ⟨c, _, bind_run.2 ⟨false, _, ?_, rfl⟩, ht, rfl, le_rfl⟩
          rw [test_run, hfront]
      | true =>
          rw [hyes] at hrun hfront
          cases hrun
          refine ⟨p ((w'.cons l').nth 1), _, bind_run.2 ⟨true, _, ?_, rfl⟩, ht,
            (hw.front hs hs' hp).symm, le_rfl⟩
          rw [test_run, hfront]

omit hs' in
theorem echoes_takeIf {wanted : Wanted} (hp : TypeTest p) :
    Echoes s s' anything (takeIf p wanted) (takeIf p wanted) := by
  refine ⟨fun {t t' a u} ht hrun => ?_⟩
  obtain ⟨l, rest, ht', rfl, rfl, hl⟩ := takeIf_run.1 hrun
  have htype := hp.type _ hl
  cases ht with
  | stop =>
      rw [Dull, ht'] at hs
      exact absurd (hs.symm.trans htype) nofun
  | @cons l₁ l' w w' hword _ _ hw =>
      cases ht'
      refine ⟨l'.token, w', takeIf_run.2 ⟨l', w'.ahead, rfl, rfl, rfl, ?_⟩, hw, trivial,
        Nat.le_succ _⟩
      rwa [hp.leadless.eq hword]

end

/-! ### Parts -/

section
variable {s s' : Tokens} {p q : Parser (List Element)} {c : Parser Bool}
  {ps qs : List (Parser (List Element))}

theorem Echoes.optional (hc : Echoes s s' Eq c c) (hp : Echoes s s' anything p q) :
    Echoes s s' anything (optional c p) (optional c q) :=
  hc.cond hp (echoes_pure trivial)

theorem Echoes.many (hc : Echoes s s' Eq c c) (hpeeks : Peeks c) (hp : Echoes s s' anything p q)
    (hless : ∀ {t es u}, p t = .ok (es, u) → u.ahead.length < t.ahead.length) :
    Echoes s s' anything (manyWhile c p) (manyWhile c q) := by
  refine echoes_iterate (R := anything) (fun done done' _ => ?_) ?_ trivial
  · exact hc.cond (hp.bind fun _ _ _ => echoes_pure ⟨trivial, rfl⟩) (echoes_pure ⟨trivial, rfl⟩)
  · intro done t t' done' u _ hround
    obtain ⟨-, ⟨-, next, hnext, -⟩ | ⟨⟨⟩, -⟩⟩ := (manyStep_run hpeeks).1 hround
    exact hless hnext

/-- The parts echo each other one by one. -/
inductive EchoesAll (s s' : Tokens) : List (Parser (List Element)) → List (Parser (List Element)) →
    Prop where
  | nil : EchoesAll s s' [] []
  | cons {p q : Parser (List Element)} {ps qs : List (Parser (List Element))}
      (h : Echoes s s' anything p q) (hs : EchoesAll s s' ps qs) : EchoesAll s s' (p :: ps) (q :: qs)

theorem EchoesAll.parts (h : EchoesAll s s' ps qs) : Echoes s s' anything (parts ps) (parts qs) := by
  induction h with
  | nil => exact echoes_pure trivial
  | cons hp _ ih => exact hp.bind fun _ _ _ => ih.then_pure _ _

theorem EchoesAll.build (h : EchoesAll s s' ps qs) (k : Java.Kind) :
    Echoes s s' anything (build k ps) (build k qs) :=
  h.parts.then_pure _ _

end

/-! ### Types -/

section
variable {s s' : Tokens} (hs : Dull s) (hs' : Dull s')
include hs hs'

theorem echoes_sees {text : String}
    (h : text ∈ [".", "<", ">", ",", "?", "extends", "super", "[", "]"]) :
    Echoes s s' Eq (sees text) (sees text) :=
  echoes_test hs hs' (typeTest_isSign h)

omit hs' in
theorem echoes_take {text : String}
    (h : text ∈ [".", "<", ">", ",", "?", "extends", "super", "[", "]"]) :
    Echoes s s' anything (tok (take text)) (tok (take text)) :=
  (echoes_takeIf hs (typeTest_isSign h)).then_pure _ _

omit hs' in
theorem echoes_takeIdentifier : Echoes s s' anything (tok takeIdentifier) (tok takeIdentifier) :=
  (echoes_takeIf hs typeTest_isIdentifier).then_pure _ _

theorem echoes_furtherNames : Echoes s s' anything furtherNames furtherNames := by
  refine Echoes.many (echoes_second hs hs' (typeTest_isSign (by simp)) typeTest_isIdentifier false)
    peeks_dotThen (EchoesAll.cons (echoes_take hs (by simp))
      (.cons (echoes_takeIdentifier hs) .nil)).parts ?_
  intro t es u hrun
  exact ((descends_furtherName (b := true) (n := t.ahead.length) t (Nat.lt_succ_self _)).2.1 _ _
    hrun).length_lt

theorem echoes_brackets : Echoes s s' anything
    (manyWhile emptyBrackets (parts [tok (take "["), tok (take "]")]))
    (manyWhile emptyBrackets (parts [tok (take "["), tok (take "]")])) := by
  refine Echoes.many (echoes_second hs hs' (typeTest_isSign (by simp)) (typeTest_isSign (by simp)) false)
    peeks_emptyBrackets (EchoesAll.cons (echoes_take hs (by simp))
      (.cons (echoes_take hs (by simp)) .nil)).parts ?_
  intro t es u hrun
  exact ((descends_brackets (b := true) (n := t.ahead.length) t (Nat.lt_succ_self _)).2.1 _ _
    hrun).length_lt

variable {g : Grammar} (hg : Echoes s s' anything (g .type) (g .type))
include hg

theorem echoes_wildcard : Echoes s s' anything (wildcard g) (wildcard g) :=
  (EchoesAll.cons (echoes_take hs (by simp)) (.cons ((echoes_test hs hs' typeTest_isOneOf).optional
    (EchoesAll.cons ((echoes_takeIf hs typeTest_isOneOf).then_pure _ _)
      (.cons (hg.then_pure _ _) .nil)).parts) .nil)).build _

theorem echoes_typeArguments : Echoes s s' anything (typeArguments g) (typeArguments g) := by
  refine (EchoesAll.cons (echoes_take hs (by simp)) (.cons (Echoes.then_pure (R := anything) ?_ _ _)
    (.cons (echoes_take hs (by simp)) .nil))).build _
  refine Echoes.then_pure (R := anything) (echoes_iterate (fun done done' _ => ?_) ?_ trivial) _ _
  · refine (echoes_sees hs hs' (by simp)).cond (echoes_pure ⟨trivial, rfl⟩) (hg.bind fun _ _ _ => ?_)
    refine (echoes_sees hs hs' (by simp [Delimiter.text])).cond ?_ (echoes_pure ⟨trivial, rfl⟩)
    exact (echoes_takeIf hs (typeTest_isSign (by simp [Delimiter.text]))).bind fun _ _ _ =>
      echoes_pure ⟨trivial, rfl⟩
  · intro done t t' done' u ht hround
    obtain ⟨⟨⟩, -⟩ | ⟨n, v, hn, ⟨-, token, htoken, -⟩ | ⟨⟨⟩, -⟩⟩ := itemStep_run peeks_sees hround
    obtain ⟨-, -, -, -, -, hle⟩ := hg.run ht hn
    have hlt := takes_takeIf htoken
    omega

theorem echoes_elementType : Echoes s s' anything (elementType g) (elementType g) :=
  (echoes_test hs hs' typeTest_isPrimitive).cond
    ((echoes_takeIf hs typeTest_isPrimitive).then_pure _ _)
    (EchoesAll.cons (echoes_takeIdentifier hs) (.cons (echoes_furtherNames hs hs')
      (.cons ((echoes_sees hs hs' (by simp)).optional
        ((echoes_typeArguments hs hs' hg).then_pure _ _)) .nil))).parts

/-- The grammar of types does the same on both texts. -/
theorem echoes_typeTree (dimensions : Bool) :
    Echoes s s' anything (typeTree g dimensions) (typeTree g dimensions) :=
  (echoes_sees hs hs' (by simp)).cond (echoes_wildcard hs hs' hg)
    ((EchoesAll.cons (echoes_elementType hs hs' hg)
      (.cons (Echoes.ite rfl (echoes_brackets hs hs') (echoes_pure trivial)) .nil)).build _)

end

/-! ### What is left of tokens of types -/

/-- In front of the first token that goes stands one that no type can go on with. -/
def Halts : Sifting → Prop
  | [] => True
  | (l, false) :: F => isTypeToken l.token = false ∨ Halts F
  | (_, true) :: _ => False

theorem dull_of_isSign {t : Token} {text : String} (h : isSign t text = true)
    (htext : text ∈ [";", ")", "\x7d"]) : isTypeToken t = false :=
  leadless_isTypeToken.none [";", ")", "\x7d"] rfl (List.any_eq_true.2 ⟨text, htext, h⟩)

theorem isBound_of_isTypeToken {t : Token} (h : isTypeToken t = true) : isBound t = false := by
  rw [← Bool.not_eq_true]
  intro hbound
  rw [leadless_isTypeToken.none _ rfl hbound] at h
  cases h

theorem halts_of_screened {G H : Sifting} (hG : Screened G) {w : Word} (hw : w ∈ G.words)
    (hdull : isTypeToken ⟨w.1, "", w.2⟩ = false) : Halts (G ++ H) := by
  induction G with
  | nil => cases hw
  | cons x G ih =>
      obtain ⟨l, _ | _⟩ := x
      · rcases hG with hscreen | hG
        · exact .inl (leadless_isTypeToken.none _ rfl hscreen)
        · rw [Sifting.words_kept, List.mem_cons] at hw
          rcases hw with rfl | hw
          · exact .inl ((leadless_isTypeToken l.token).symm.trans hdull)
          · exact .inr (ih hG hw)
      · exact hG.elim

/-- The texts in front of which the tokens of a type lie. -/
structure Split (F : Sifting) (t t' s s' : Tokens) (F' : Sifting) : Prop where
  beside : Beside s s' t t'
  dull : Dull s
  dull' : Dull s'
  sifts : Sifts F' s s'
  fits : Fits false F'
  starts : Halts F → F'.Starts

theorem Sifts.split {F : Sifting} {t t' : Tokens} (h : Sifts F t t') (hF : Fits false F) :
    ∃ s s' F', Split F t t' s s' F' := by
  induction F generalizing t t' with
  | nil =>
      have hdull : ∀ {t : Tokens}, t.ahead = [] → t.last.token.kind = .eof → Dull t := by
        intro t hahead hlast
        simp [Dull, Tokens.nth, hahead, isTypeToken, isIdentifier, isPrimitive, isOneOf, isSign, hlast]
      refine ⟨t, t', [], .stop, hdull h.all h.eof, hdull ?_ ?_, h, hF, fun _ => Sifting.starts_nil⟩
      · obtain ⟨-, hleft, -, -⟩ := h
        generalize t'.ahead = ls at hleft
        cases hleft
        rfl
      · rw [← h.eof]
        exact congrArg Prod.fst h.last
  | cons x F ih =>
      obtain ⟨l, _ | _⟩ := x
      · obtain ⟨l', ls, ht, ht', hword, hshift, hrest⟩ := h.kept
        cases htype : isTypeToken l.token with
        | true =>
            rw [Fits, isBound_of_isTypeToken htype] at hF
            obtain ⟨s, s', F', hbeside, hs, hs', hsifts, hfits, hstarts⟩ := ih hrest hF
            refine ⟨s, s', F', ?_, hs, hs', hsifts, hfits, fun hhalts => hstarts ?_⟩
            · rw [ht, ht']
              exact .cons hword htype hshift hbeside
            · exact hhalts.resolve_left (by simp [htype])
        | false =>
            refine ⟨t, t', (l, false) :: F, .stop, ?_, ?_, h, hF, fun _ => Sifting.starts_kept l F⟩
            · rw [Dull, ht]
              exact htype
            · rw [Dull, ht']
              exact (leadless_isTypeToken.eq hword).trans htype
      · obtain ⟨hsign, hnext, hfits⟩ := hF
        obtain ⟨token, htoken, hclosing⟩ := (Option.any_eq_true _ _).1 hnext
        obtain ⟨ht, -⟩ := h.gone
        refine ⟨t, t', (l, true) :: F, .stop, ?_, ?_, h, ⟨hsign, hnext, hfits⟩, False.elim⟩
        · rw [Dull, ht]
          exact dull_of_isSign hsign (by simp)
        · replace hclosing : isClosing token = true := by simpa using hclosing
          rw [Dull, @Leadless.eq _ leadless_isTypeToken _ token]
          · exact leadless_isTypeToken.none _ rfl hclosing
          · rw [h.word_front, Sifting.front?_gone, htoken]
            rfl

/-! ### Looking ahead -/

theorem foresee_run {probe : Parser Bool} {t u : Tokens} {b : Bool} :
    foresee probe t = .ok (b, u) ↔ u = t ∧ (b = true ↔ ∃ v, probe t = .ok (true, v)) := by
  rw [foresee]
  cases hprobe : probe t with
  | error e =>
      cases b <;> simp [eq_comm]
  | ok x =>
      obtain ⟨answer, v⟩ := x
      cases answer <;> cases b <;> simp [eq_comm]

/-- A parenthesis closes the type of a cast. Where `plain` says so, anything may stand behind it. -/
def Closes (plain : Bool) (t : Tokens) : Prop :=
  ∃ m x, take ")" t = .ok (m, x) ∧ (plain || startsOperand (x.nth 0)) = true

theorem castAhead_run {g : Grammar} {t : Tokens} :
    castAhead g t = .ok (true, t) ↔ ∃ l v, take "(" t = .ok (l, v) ∧
      ∃ n w, typeTree g true v = .ok (n, w) ∧ Closes (isPrimitive (v.nth 0)) w := by
  rw [castAhead, foresee_run]
  simp only [true_and, true_iff]
  constructor
  · rintro ⟨u, h⟩
    obtain ⟨l, v, hl, h⟩ := bind_run.1 h
    obtain ⟨primitive, v', hprimitive, h⟩ := bind_run.1 h
    cases hprimitive
    obtain ⟨n, w, hn, h⟩ := bind_run.1 h
    obtain ⟨m, x, hm, h⟩ := bind_run.1 h
    refine ⟨l, v, hl, n, w, hn, m, x, hm, ?_⟩
    cases hfront : isPrimitive (v.nth 0) with
    | true => rfl
    | false =>
        rw [hfront] at h
        exact (congrArg Prod.fst (Except.ok.inj h))
  · rintro ⟨l, v, hl, n, w, hn, m, x, hm, hanswer⟩
    refine ⟨x, bind_run.2 ⟨l, v, hl, bind_run.2 ⟨_, v, rfl, bind_run.2 ⟨n, w, hn,
      bind_run.2 ⟨m, x, hm, ?_⟩⟩⟩⟩⟩
    cases hfront : isPrimitive (v.nth 0) with
    | true => rfl
    | false =>
        rw [hfront] at hanswer
        exact congrArg (fun b => Except.ok (b, x)) hanswer

theorem declarationAhead_run {g : Grammar} {t : Tokens} :
    declarationAhead g t = .ok (true, t) ↔
      isPrimitive (t.nth 0) = true ∧ isSign (t.nth 1) "." = false ∨
        ∃ n u, typeTree g true t = .ok (n, u) ∧ isIdentifier (u.nth 0) = true ∧
          isOneOf ["=", ";", ",", "[", ":"] (u.nth 1) = true := by
  have hprobe : ∀ {t : Tokens}, foresee (do
        let _ ← typeTree g true
        if ← test isIdentifier then test (isOneOf ["=", ";", ",", "[", ":"]) 1
        else return false) t = .ok (true, t) ↔
      ∃ n u, typeTree g true t = .ok (n, u) ∧ isIdentifier (u.nth 0) = true ∧
        isOneOf ["=", ";", ",", "[", ":"] (u.nth 1) = true := by
    intro t
    rw [foresee_run]
    simp only [true_and, true_iff]
    constructor
    · rintro ⟨v, h⟩
      obtain ⟨n, u, hn, h⟩ := bind_run.1 h
      obtain ⟨yes, u', hyes, h⟩ := bind_run.1 h
      cases hyes
      cases hfront : isIdentifier (u.nth 0) with
      | false =>
          rw [hfront] at h
          cases h
      | true =>
          rw [hfront] at h
          exact ⟨n, u, hn, hfront, congrArg Prod.fst (Except.ok.inj h)⟩
    · rintro ⟨n, u, hn, hfront, hanswer⟩
      refine ⟨u, bind_run.2 ⟨n, u, hn, bind_run.2 ⟨true, u, ?_, ?_⟩⟩⟩
      · rw [test_run, hfront]
      · exact congrArg (fun b => Except.ok (b, u)) hanswer
  rw [← hprobe]
  show (if isPrimitive (t.nth 0) && !isSign (t.nth 1) "." then _ else _ : Parser Bool) t = _ ↔ _
  cases hprimitive : isPrimitive (t.nth 0) <;> cases hdot : isSign (t.nth 1) "." <;>
    simp [pure_run]

theorem inner_startsOperand : Inner startsOperand :=
  inner_of (fun _ => rfl) rfl

section
variable {F : Sifting} {t t' s s' : Tokens}

theorem isBound_parenthesis {t : Token} {text : String} (h : isSign t text = true)
    (htext : text ∈ ["(", ")"]) : isBound t = false :=
  isOneOf_disjoint (by decide) (List.any_eq_true.2 ⟨text, htext, h⟩)

theorem Sifts.closes_iff (h : Sifts F t t') (hF : Level.kept.At F) (plain : Bool) :
    Closes plain t ↔ Closes plain t' := by
  cases F with
  | nil =>
      obtain ⟨hall, hleft, -, -⟩ := h
      cases t with | mk ahead last => cases t' with | mk ahead' last' =>
      cases hall
      cases hleft
      exact ⟨nofun, nofun⟩
  | cons x F =>
      obtain ⟨l, rfl⟩ := hF.1.head
      obtain ⟨l', ls, ht, ht', hword, -, hrest⟩ := h.kept
      have hsign : isSign l'.token ")" = isSign l.token ")" := (leadless_isSign ")").eq hword
      rw [ht, ht', Closes, Closes, take, takeIf_cons, takeIf_cons, hsign]
      cases hyes : isSign l.token ")" with
      | false => exact ⟨nofun, nofun⟩
      | true =>
          have hfits : Fits false F := fits_behind hF.2 (isBound_parenthesis hyes (by simp))
          have hsame := inner_startsOperand.front hfits hrest
          constructor
          · rintro ⟨m, x, hx, hanswer⟩
            cases hx
            exact ⟨_, _, rfl, by rwa [hsame]⟩
          · rintro ⟨m, x, hx, hanswer⟩
            cases hx
            exact ⟨_, _, rfl, by rwa [← hsame]⟩

theorem cast_echoes {g : Grammar} {v v' : Tokens}
    (hg : Echoes s s' anything (typeTree g true) (typeTree g true)) (hv : Beside s s' v v')
    {plain : Bool} (hend : Closes plain s → Closes plain s')
    (h : ∃ n w, typeTree g true v = .ok (n, w) ∧ Closes plain w) :
    ∃ n w, typeTree g true v' = .ok (n, w) ∧ Closes plain w := by
  obtain ⟨n, w, hn, hcloses⟩ := h
  obtain ⟨n', w', hn', hw, -⟩ := hg.run hv hn
  cases hw with
  | stop => exact ⟨n', s', hn', hend hcloses⟩
  | cons _ htype _ _ =>
      obtain ⟨m, x, hm, -⟩ := hcloses
      obtain ⟨l, rest, heq, -, rfl, hsign⟩ := takeIf_run.1 hm
      cases heq
      rw [dull_of_isSign hsign (by simp)] at htype
      cases htype

theorem answers_of_peeks {c : Parser Bool} {b : Bool} {u : Tokens}
    (h : ∃ answer, c u = .ok (answer, u)) (hnot : c u ≠ .ok (!b, u)) : c u = .ok (b, u) := by
  obtain ⟨answer, hanswer⟩ := h
  cases answer <;> cases b <;> first | exact hanswer | exact absurd hanswer hnot

theorem answers_foresee (probe : Parser Bool) (u : Tokens) :
    ∃ answer, foresee probe u = .ok (answer, u) := by
  rw [foresee]
  cases probe u with
  | error e => exact ⟨false, rfl⟩
  | ok x => exact ⟨x.1, rfl⟩

section
variable {g : Grammar} (hg : ∀ {s s'}, Dull s → Dull s' → Echoes s s' anything (g .type) (g .type))
include hg

theorem Split.cast {F' : Sifting} (h : Split F t t' s s' F') {plain : Bool}
    (hcast : ∃ n w, typeTree g true t = .ok (n, w) ∧ Closes plain w) :
    ∃ n w, typeTree g true t' = .ok (n, w) ∧ Closes plain w := by
  refine cast_echoes (echoes_typeTree h.dull h.dull' (hg h.dull h.dull') true) h.beside
    (fun hend => (h.sifts.closes_iff ⟨?_, h.fits⟩ plain).1 hend) hcast
  obtain ⟨_, _, hclosed, -⟩ := hend
  obtain ⟨k, rest, hs, -, rfl, hk⟩ := takeIf_run.1 hclosed
  refine h.sifts.starts h.fits ?_
  rw [hs]
  simp [Tokens.nth, isSign, text_of_isSign hk]

theorem Split.cast_back {F' : Sifting} (h : Split F t t' s s' F') (hF : Halts F) {plain : Bool}
    (hcast : ∃ n w, typeTree g true t' = .ok (n, w) ∧ Closes plain w) :
    ∃ n w, typeTree g true t = .ok (n, w) ∧ Closes plain w :=
  cast_echoes (echoes_typeTree h.dull' h.dull (hg h.dull' h.dull) true) h.beside.symm
    (h.sifts.closes_iff ⟨h.starts hF, h.fits⟩ plain).2 hcast

theorem castAhead_same (h : Sifts F t t') (hF : Level.kept.At F) :
    (castAhead g t = .ok (true, t) → castAhead g t' = .ok (true, t')) ∧
      ((∀ l F', F = (l, false) :: F' → isSign l.token "(" = true → Halts F') →
        castAhead g t' = .ok (true, t') → castAhead g t = .ok (true, t)) := by
  -- A token that goes could stand between the type and the parenthesis; without it a cast would begin
  -- where there was none. Hence the condition on the way back.
  rw [castAhead_run, castAhead_run]
  cases F with
  | nil =>
      obtain ⟨hall, hleft, -, -⟩ := h
      cases t with | mk ahead last => cases t' with | mk ahead' last' =>
      cases hall
      cases hleft
      have hnone : ∀ {last l v}, take "(" ⟨[], last⟩ ≠ .ok (l, v) := nofun
      exact ⟨fun ⟨_, _, hl, _⟩ => absurd hl hnone, fun _ ⟨_, _, hl, _⟩ => absurd hl hnone⟩
  | cons x F =>
      obtain ⟨l, rfl⟩ := hF.1.head
      obtain ⟨l', ls, ht, ht', hword, -, hrest⟩ := h.kept
      have hsign : isSign l'.token "(" = isSign l.token "(" := (leadless_isSign "(").eq hword
      cases t with | mk ahead last => cases t' with | mk ahead' last' =>
      cases ht
      cases ht'
      simp only [take, takeIf_cons, hsign]
      cases hyes : isSign l.token "(" with
      | false =>
          exact ⟨fun ⟨_, _, hl, _⟩ => absurd hl expected_run,
            fun _ ⟨_, _, hl, _⟩ => absurd hl expected_run⟩
      | true =>
          obtain ⟨s, s', F', hsplit⟩ :=
            hrest.split (fits_behind hF.2 (isBound_parenthesis hyes (by simp)))
          have hprimitive := hsplit.beside.front hsplit.dull hsplit.dull' typeTest_isPrimitive
          constructor
          · rintro ⟨_, _, ⟨⟩, hcast⟩
            exact ⟨_, _, rfl, by simpa only [hprimitive] using hsplit.cast hg hcast⟩
          · rintro hhalts ⟨_, _, ⟨⟩, hcast⟩
            rw [hprimitive] at hcast
            exact ⟨_, _, rfl, hsplit.cast_back hg (hhalts l F rfl hyes) hcast⟩

/-- What is asked for behind a type in front of the name of a variable. -/
theorem declaration_echoes (hs : Dull s) (hs' : Dull s') (ht : Beside s s' t t')
    (hend : isOneOf ["=", ";", ",", "[", ":"] (s.nth 0) = true →
      isOneOf ["=", ";", ",", "[", ":"] (s'.nth 0) = true)
    (h : declarationAhead g t = .ok (true, t)) : declarationAhead g t' = .ok (true, t') := by
  have hfront := fun {r} => ht.front hs hs' (p := r)
  rw [declarationAhead_run] at h ⊢
  rcases h with ⟨hprimitive, hdot⟩ | ⟨n, u, hn, hname, hbehind⟩
  · refine .inl ⟨(hfront typeTest_isPrimitive).trans hprimitive, ?_⟩
    cases ht with
    | stop =>
        rw [Dull, typeTest_isPrimitive.type _ hprimitive] at hs
        cases hs
    | cons _ _ _ hw => exact (hw.front hs hs' (typeTest_isSign (by simp))).trans hdot
  · obtain ⟨n', u', hn', hu, -⟩ := (echoes_typeTree hs hs' (hg hs hs') true).run ht hn
    refine .inr ⟨n', u', hn', (hu.front hs hs' typeTest_isIdentifier).trans hname, ?_⟩
    cases hu with
    | stop =>
        rw [Dull, typeTest_isIdentifier.type _ hname] at hs
        cases hs
    | cons _ _ _ hw =>
        cases hw with
        | stop => exact hend hbehind
        | cons hword _ _ _ => exact ((leadless_isOneOf _).eq hword).trans hbehind

theorem declarationAhead_same (h : Sifts F t t') (hF : Fits false F) :
    (Halts F → declarationAhead g t = .ok (true, t) → declarationAhead g t' = .ok (true, t')) ∧
      (declarationAhead g t' = .ok (true, t') → declarationAhead g t = .ok (true, t)) := by
  obtain ⟨s, s', F', hsplit⟩ := h.split hF
  refine ⟨fun hhalts => declaration_echoes hg hsplit.dull hsplit.dull' hsplit.beside fun hend => ?_,
    declaration_echoes hg hsplit.dull' hsplit.dull hsplit.beside.symm fun hend => ?_⟩
  · exact ((leadless_isOneOf _).eq (hsplit.sifts.front_kept (hsplit.starts hhalts))).trans hend
  · rcases hsplit.sifts.front_of_fits hsplit.fits with hword | ⟨-, token, hword, hclosing⟩
    · exact ((leadless_isOneOf _).eq hword).symm.trans hend
    · replace hclosing : isClosing token = true := by simpa using hclosing
      rw [← (leadless_isOneOf _).eq hword] at hend
      rw [isOneOf_disjoint (by decide) hclosing] at hend
      cases hend

end

end

end Codemod.Recipes.Semicolons.Sifted
