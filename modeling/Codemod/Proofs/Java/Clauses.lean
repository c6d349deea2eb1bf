import Codemod.Proofs.Java.RelabelledGrammar
import Codemod.Proofs.Java.Units
import Mathlib.Data.List.Forall2

/-!
The clauses in front of the types of a unit. Which tokens the parsers of a package clause and of a
clause that imports take is said by the tokens alone: what stands behind the semicolon makes no
difference, nor does the trivia, nor which words the identifiers are.
-/

namespace Codemod.Java

open Codemod.Tree

/-- The token is of the same kind and, but for the words of identifiers, of the same text. -/
structure Lookalike (t t' : Token) : Prop where
  kind : t'.kind = t.kind
  text : t.kind ≠ .identifier → t'.text = t.text

theorem Lookalike.isSign {t t' : Token} (h : Lookalike t t') (text : String) :
    isSign t' text = isSign t text := by
  by_cases hkind : t.kind = .identifier
  · rw [Java.isSign, Java.isSign, h.kind, hkind]
    rfl
  · rw [Java.isSign, Java.isSign, h.kind, h.text hkind]

theorem Lookalike.isIdentifier {t t' : Token} (h : Lookalike t t') :
    isIdentifier t' = isIdentifier t := by
  rw [Java.isIdentifier, Java.isIdentifier, h.kind]

namespace Tokens.Passes

theorem append_iff {t v : Tokens} {xs ys : List Token} :
    t.Passes (xs ++ ys) v ↔ ∃ u, t.Passes xs u ∧ u.Passes ys v := by
  constructor
  · rintro ⟨hlast, front, hfront, hmap⟩
    obtain ⟨before, behind, rfl, rfl, rfl⟩ := List.map_eq_append_iff.1 hmap
    refine ⟨⟨behind ++ v.ahead, t.last⟩, ⟨rfl, before, ?_, rfl⟩, hlast, behind, rfl, rfl⟩
    rw [hfront, List.append_assoc]
  · rintro ⟨u, hxs, hys⟩
    exact hxs.trans hys

theorem nil_iff {t u : Tokens} : t.Passes [] u ↔ u = t := by
  constructor
  · rintro ⟨hlast, front, hfront, hmap⟩
    obtain rfl := List.map_eq_nil_iff.1 hmap
    obtain ⟨ahead, last⟩ := t
    obtain ⟨ahead', last'⟩ := u
    exact congrArg₂ Tokens.mk hfront.symm hlast
  · rintro rfl
    exact .refl _

theorem unique {t u : Tokens} {xs ys : List Token} (hxs : t.Passes xs u) (hys : t.Passes ys u) :
    xs = ys := by
  obtain ⟨_, front, hfront, rfl⟩ := hxs
  obtain ⟨_, front', hfront', rfl⟩ := hys
  rw [List.append_cancel_right (hfront.symm.trans hfront')]

theorem nth_zero {t u : Tokens} {x : Token} {xs : List Token} (h : t.Passes (x :: xs) u) :
    t.nth 0 = x := by
  obtain ⟨_, front, hfront, hmap⟩ := h
  obtain ⟨lexed, rest, rfl, rfl, _⟩ := List.map_eq_cons_iff.1 hmap
  rw [nth, hfront]
  rfl

theorem nth_one {t u : Tokens} {x y : Token} {xs : List Token} (h : t.Passes (x :: y :: xs) u) :
    t.nth 1 = y := by
  obtain ⟨_, front, hfront, hmap⟩ := h
  obtain ⟨_, _, rfl, _, hmap⟩ := List.map_eq_cons_iff.1 hmap
  obtain ⟨lexed, rest, rfl, rfl, _⟩ := List.map_eq_cons_iff.1 hmap
  rw [nth, hfront]
  rfl

end Tokens.Passes

namespace Parser

variable {α β : Type}

/-! ### Loops -/

/-- A loop from one state to another with what its rounds give. -/
inductive Repeats (c : Parser Bool) (p : Parser (List Element)) :
    Tokens → List Element → Tokens → Prop where
  | done {t : Tokens} (h : c t = .ok (false, t)) : Repeats c p t [] t
  | more {t u v : Tokens} {next others : List Element} (h : c t = .ok (true, t))
      (hp : p t = .ok (next, u)) (hs : Repeats c p u others v) : Repeats c p t (next ++ others) v

theorem repeats_of_manyWhile {c : Parser Bool} {p : Parser (List Element)} (hc : Peeks c)
    {t u : Tokens} {es : List Element} (h : manyWhile c p t = .ok (es, u)) : Repeats c p t es u := by
  have hwithin : ∀ limit done t es, repeatWithin (manyStep c p) limit done t = .ok (es, u) →
      ∃ others, es = done ++ others ∧ Repeats c p t others u := by
    intro limit
    induction limit with
    | zero => exact fun _ _ _ h => absurd h fail_run
    | succ limit ih =>
        intro done t es h
        obtain ⟨⟨done', more⟩, v, hstep, hrest⟩ := bind_run.1 h
        obtain ⟨hmore, ⟨rfl, next, hnext, rfl⟩ | ⟨rfl, rfl, rfl⟩⟩ := (manyStep_run hc).1 hstep
        · obtain ⟨others, rfl, hothers⟩ := ih _ _ _ hrest
          exact ⟨next ++ others, List.append_assoc _ _ _, .more hmore hnext hothers⟩
        · cases hrest
          exact ⟨[], (List.append_nil _).symm, .done hmore⟩
  obtain ⟨others, rfl, hothers⟩ := hwithin _ _ _ _ h
  exact hothers

theorem Repeats.manyWhile {c : Parser Bool} {p : Parser (List Element)} (hc : Peeks c)
    {t u : Tokens} {es : List Element} (h : Repeats c p t es u)
    (htakes : ∀ {t u es}, p t = .ok (es, u) → u.ahead.length < t.ahead.length) :
    manyWhile c p t = .ok (es, u) := by
  have hwithin : ∀ limit done, t.ahead.length < limit →
      repeatWithin (manyStep c p) limit done t = .ok (done ++ es, u) := by
    induction h with
    | done h =>
        intro limit done hlimit
        cases limit with
        | zero => exact absurd hlimit (Nat.not_lt_zero _)
        | succ limit =>
            refine bind_run.2 ⟨(done, false), _, (manyStep_run hc).2 ⟨h, .inr ⟨rfl, rfl, rfl⟩⟩, ?_⟩
            exact pure_run.2 ⟨List.append_nil done, rfl⟩
    | @more t v w next others h hp _ ih =>
        intro limit done hlimit
        cases limit with
        | zero => exact absurd hlimit (Nat.not_lt_zero _)
        | succ limit =>
            refine bind_run.2 ⟨(done ++ next, true), v,
              (manyStep_run hc).2 ⟨h, .inl ⟨rfl, next, hp, rfl⟩⟩, ?_⟩
            rw [← List.append_assoc]
            exact ih limit (done ++ next) (Nat.lt_of_lt_of_le (htakes hp) (Nat.le_of_lt_succ hlimit))
  exact hwithin _ [] (Nat.lt_succ_self _)

/-! ### Recognizers -/

/-- The parser succeeds exactly on tokens of this form, whatever stands behind them. -/
def Recognizes (p : Parser α) (F : List Token → Prop) : Prop :=
  ∀ t u, (∃ a, p t = .ok (a, u)) ↔ ∃ taken, t.Passes taken u ∧ F taken

theorem recognizes_takeIf {p : Token → Bool} {wanted : Wanted} :
    Recognizes (takeIf p wanted) fun ts => ∃ t, ts = [t] ∧ p t = true := by
  intro t u
  constructor
  · rintro ⟨a, h⟩
    obtain ⟨hpasses, ha⟩ := takeIf_passes h
    exact ⟨[a], hpasses, a, rfl, ha⟩
  · rintro ⟨_, ⟨hlast, front, hfront, hmap⟩, a, rfl, ha⟩
    obtain ⟨lexed, rest, rfl, rfl, hrest⟩ := List.map_eq_cons_iff.1 hmap
    obtain rfl := List.map_eq_nil_iff.1 hrest
    refine ⟨lexed.token, takeIf_run.2 ⟨lexed, u.ahead, ?_, ?_, rfl, ha⟩⟩
    · obtain ⟨ahead, last⟩ := t
      exact congrArg (Tokens.mk · last) hfront
    · obtain ⟨ahead, last⟩ := u
      exact congrArg (Tokens.mk ahead) hlast

theorem Recognizes.tok {p : Parser Token} {F : List Token → Prop} (h : Recognizes p F) :
    Recognizes (tok p) F := by
  intro t u
  rw [← h t u]
  constructor
  · rintro ⟨es, hes⟩
    obtain ⟨a, ha, _⟩ := tok_run.1 hes
    exact ⟨a, ha⟩
  · rintro ⟨a, ha⟩
    exact ⟨_, tok_run.2 ⟨a, ha, rfl⟩⟩

theorem Recognizes.build {ps : List (Parser (List Element))} {F : List Token → Prop}
    (h : Recognizes (parts ps) F) (k : Kind) : Recognizes (build k ps) F := by
  intro t u
  rw [← h t u]
  constructor
  · rintro ⟨n, hn⟩
    obtain ⟨es, hes, _⟩ := build_run.1 hn
    exact ⟨es, hes⟩
  · rintro ⟨es, hes⟩
    exact ⟨_, build_run.2 ⟨es, hes, rfl⟩⟩

theorem recognizes_nil : Recognizes (parts []) (· = []) := by
  intro t u
  constructor
  · rintro ⟨es, h⟩
    obtain ⟨rfl, rfl⟩ := parts_nil_run.1 h
    exact ⟨[], .refl u, rfl⟩
  · rintro ⟨_, hpasses, rfl⟩
    exact ⟨[], parts_nil_run.2 ⟨rfl, (Tokens.Passes.nil_iff.1 hpasses)⟩⟩

theorem Recognizes.cons {p : Parser (List Element)} {ps : List (Parser (List Element))}
    {F G : List Token → Prop} (hp : Recognizes p F) (hps : Recognizes (parts ps) G) :
    Recognizes (parts (p :: ps)) fun ts => ∃ xs ys, ts = xs ++ ys ∧ F xs ∧ G ys := by
  intro t v
  constructor
  · rintro ⟨es, h⟩
    obtain ⟨first, u, others, hfirst, hothers, rfl⟩ := parts_cons_run.1 h
    obtain ⟨xs, hxs, hF⟩ := (hp t u).1 ⟨first, hfirst⟩
    obtain ⟨ys, hys, hG⟩ := (hps u v).1 ⟨others, hothers⟩
    exact ⟨xs ++ ys, hxs.trans hys, xs, ys, rfl, hF, hG⟩
  · rintro ⟨_, hpasses, xs, ys, rfl, hF, hG⟩
    obtain ⟨u, hxs, hys⟩ := Tokens.Passes.append_iff.1 hpasses
    obtain ⟨first, hfirst⟩ := (hp t u).2 ⟨xs, hxs, hF⟩
    obtain ⟨others, hothers⟩ := (hps u v).2 ⟨ys, hys, hG⟩
    exact ⟨first ++ others, parts_cons_run.2 ⟨first, u, others, hfirst, hothers, rfl⟩⟩

theorem Recognizes.congr {p : Parser α} {F G : List Token → Prop} (h : Recognizes p F)
    (hFG : ∀ ts, F ts ↔ G ts) : Recognizes p G := by
  intro t u
  rw [h t u]
  simp only [hFG]

theorem Recognizes.takeIf {p : Token → Bool} {wanted : Wanted} {ps : List (Parser (List Element))}
    {G : List Token → Prop} (hps : Recognizes (parts ps) G) :
    Recognizes (parts (Parser.tok (Parser.takeIf p wanted) :: ps))
      fun ts => ∃ t us, ts = t :: us ∧ p t = true ∧ G us := by
  refine (recognizes_takeIf.tok.cons hps).congr fun ts => ?_
  constructor
  · rintro ⟨_, ys, rfl, ⟨t, rfl, ht⟩, hG⟩
    exact ⟨t, ys, rfl, ht, hG⟩
  · rintro ⟨t, us, rfl, ht, hG⟩
    exact ⟨[t], us, rfl, ⟨t, rfl, ht⟩, hG⟩

theorem recognizes_pair {p q : Token → Bool} {wanted wanted' : Wanted} :
    Recognizes (parts [Parser.tok (Parser.takeIf p wanted), Parser.tok (Parser.takeIf q wanted')])
      fun ts => ∃ t t', ts = [t, t'] ∧ p t = true ∧ q t' = true := by
  refine (Recognizes.takeIf (Recognizes.takeIf recognizes_nil)).congr fun ts => ?_
  constructor
  · rintro ⟨t, _, rfl, ht, t', _, rfl, ht', rfl⟩
    exact ⟨t, t', rfl, ht, ht'⟩
  · rintro ⟨t, t', rfl, ht, ht'⟩
    exact ⟨t, [t'], rfl, ht, t', [], rfl, ht', rfl⟩

end Parser

namespace Grammar

open Codemod.Java.Parser

/-! ### Dotted names -/

/-- The tokens behind the first part of a dotted name, up to the semicolon behind the name. -/
inductive NameEnd (allowStar : Bool) : List Token → Prop where
  | semicolon {t : Token} (h : isSign t ";" = true) : NameEnd allowStar [t]
  | part {dot t : Token} {ts : List Token} (hdot : isSign dot "." = true)
      (ht : isIdentifier t = true) (hs : NameEnd allowStar ts) : NameEnd allowStar (dot :: t :: ts)
  | star {dot t semicolon : Token} (hallow : allowStar = true) (hdot : isSign dot "." = true)
      (ht : isSign t "*" = true) (h : isSign semicolon ";" = true) :
      NameEnd allowStar [dot, t, semicolon]

/-- The asterisk at the end of a dotted name, if there may be one. -/
def starPart (allowStar : Bool) : Parser (List Element) :=
  if allowStar then optional (dotThen (isSign · "*")) (parts [tok (take "."), tok (take "*")])
  else return []

theorem dotThen_run (p : Token → Bool) (t : Tokens) :
    dotThen p t = .ok (isSign (t.nth 0) "." && p (t.nth 1), t) := by
  rw [dotThen, bind_ok (sees_run "." 0 t)]
  cases isSign (t.nth 0) "." <;> rfl

theorem isSign_inj {t : Token} {text text' : String} (h : isSign t text = true)
    (h' : isSign t text' = true) : text = text' :=
  (text_of_isSign h).symm.trans (text_of_isSign h')

theorem isSign_of_isIdentifier {t : Token} (h : isIdentifier t = true) (text : String) :
    isSign t text = false := by
  simp [isSign, beq_iff_eq.1 h]

theorem identifier_of_isSign {t : Token} {text : String} (h : isSign t text = true) :
    isIdentifier t = false := by
  simp only [isSign, Bool.and_eq_true, Bool.or_eq_true, beq_iff_eq] at h
  rcases h.1 with hkind | hkind <;> simp [isIdentifier, hkind]

theorem recognizes_semicolon :
    Recognizes (parts [tok (take ";")]) fun ts => ∃ t, ts = [t] ∧ isSign t ";" = true := by
  refine (Recognizes.takeIf recognizes_nil).congr fun ts => ?_
  constructor
  · rintro ⟨t, _, rfl, ht, rfl⟩
    exact ⟨t, rfl, ht⟩
  · rintro ⟨t, rfl, ht⟩
    exact ⟨t, [], rfl, ht, rfl⟩

theorem nameEnd_of_run {allowStar : Bool} {v w u : Tokens} {es fs : List Element}
    (hstar : starPart allowStar v = .ok (es, w)) (hend : parts [tok (take ";")] w = .ok (fs, u)) :
    ∃ taken, v.Passes taken u ∧ NameEnd allowStar taken := by
  obtain ⟨_, hpasses, t, rfl, ht⟩ := (recognizes_semicolon w u).1 ⟨fs, hend⟩
  cases allowStar with
  | false =>
      obtain ⟨rfl, rfl⟩ := pure_run.1 hstar
      exact ⟨[t], hpasses, .semicolon ht⟩
  | true =>
      obtain ⟨present, x, hpresent, hstar⟩ := bind_run.1 hstar
      cases peeks_dotThen hpresent
      cases present with
      | false =>
          obtain ⟨rfl, rfl⟩ := pure_run.1 hstar
          exact ⟨[t], hpasses, .semicolon ht⟩
      | true =>
          obtain ⟨_, hpasses', dot, star, rfl, hdot, hstar⟩ := (recognizes_pair v w).1 ⟨es, hstar⟩
          exact ⟨_, hpasses'.trans hpasses, .star rfl hdot hstar ht⟩

/-- A dot and a name. -/
abbrev namePart : Parser (List Element) :=
  parts [tok (take "."), tok takeIdentifier]

theorem ahead_namePart {t u : Tokens} {es : List Element} (h : namePart t = .ok (es, u)) :
    u.ahead.length < t.ahead.length := by
  obtain ⟨_, hpasses, _, _, rfl, _⟩ := (recognizes_pair t u).1 ⟨es, h⟩
  rw [hpasses.length]
  simp

theorem run_of_nameEnd {allowStar : Bool} {taken : List Token} (h : NameEnd allowStar taken)
    {t u : Tokens} (hpasses : t.Passes taken u) :
    ∃ names v star w last, Repeats (dotThen isIdentifier) namePart t names v ∧
      starPart allowStar v = .ok (star, w) ∧ parts [tok (take ";")] w = .ok (last, u) := by
  induction h generalizing t with
  | @semicolon x hx =>
      have hdot : isSign x "." = false := by
        by_contra hdot
        exact absurd (isSign_inj hx (Bool.not_eq_false _ ▸ hdot)) (by decide)
      have hnone : ∀ p, dotThen p t = .ok (false, t) := by
        intro p
        rw [dotThen_run, hpasses.nth_zero, hdot]
        rfl
      obtain ⟨last, hlast⟩ := (recognizes_semicolon t u).2 ⟨_, hpasses, x, rfl, hx⟩
      refine ⟨[], t, [], t, last, .done (hnone _), ?_, hlast⟩
      cases allowStar with
      | false => rfl
      | true => exact bind_run.2 ⟨false, t, hnone _, rfl⟩
  | @part dot x ts hdot hx _ ih =>
      obtain ⟨v, hfirst, hbehind⟩ := (@Tokens.Passes.append_iff t u [dot, x] _).1 hpasses
      obtain ⟨names, v', star, w, last, hnames, hstar, hlast⟩ := ih hbehind
      obtain ⟨first, hpart⟩ : ∃ first, namePart t = .ok (first, v) :=
        (recognizes_pair t v).2 ⟨_, hfirst, dot, x, rfl, hdot, hx⟩
      refine ⟨first ++ names, v', star, w, last, .more ?_ hpart hnames, hstar, hlast⟩
      rw [dotThen_run, hpasses.nth_zero, hpasses.nth_one, hdot, hx]
      rfl
  | @star dot x semicolon hallow hdot hx hsemicolon =>
      obtain ⟨v, hfirst, hbehind⟩ := (@Tokens.Passes.append_iff t u [dot, x] _).1 hpasses
      obtain ⟨star, hstar⟩ : ∃ star, parts [tok (take "."), tok (take "*")] t = .ok (star, v) :=
        (recognizes_pair t v).2 ⟨_, hfirst, dot, x, rfl, hdot, hx⟩
      obtain ⟨last, hlast⟩ :=
        (recognizes_semicolon v u).2 ⟨_, hbehind, semicolon, rfl, hsemicolon⟩
      refine ⟨[], t, star, v, last, .done ?_, ?_, hlast⟩
      · rw [dotThen_run, hpasses.nth_zero, hpasses.nth_one, hdot, identifier_of_isSign hx]
        rfl
      · rw [starPart, if_pos hallow]
        refine bind_run.2 ⟨true, t, ?_, hstar⟩
        rw [dotThen_run, hpasses.nth_zero, hpasses.nth_one, hdot, hx]
        rfl

theorem recognizes_nameEnd (allowStar : Bool) :
    Recognizes (parts [furtherNames, starPart allowStar, tok (take ";")]) (NameEnd allowStar) := by
  intro t u
  constructor
  · rintro ⟨es, h⟩
    obtain ⟨names, v, _, hnames, hrest, rfl⟩ := parts_cons_run.1 h
    obtain ⟨star, w, _, hstar, hend, rfl⟩ := parts_cons_run.1 hrest
    have hrepeats := repeats_of_manyWhile peeks_dotThen hnames
    clear h hnames hrest
    induction hrepeats with
    | done => exact nameEnd_of_run hstar hend
    | more _ hpart _ ih =>
        obtain ⟨taken, hpasses, hname⟩ := ih hstar
        obtain ⟨_, hpasses', dot, t, rfl, hdot, ht⟩ := (recognizes_pair _ _).1 ⟨_, hpart⟩
        exact ⟨_, hpasses'.trans hpasses, .part hdot ht hname⟩
  · rintro ⟨taken, hpasses, h⟩
    obtain ⟨names, v, star, w, last, hnames, hstar, hlast⟩ := run_of_nameEnd h hpasses
    refine ⟨names ++ (star ++ last), parts_cons_run.2 ⟨names, v, star ++ last, ?_, ?_, rfl⟩⟩
    · exact hnames.manyWhile peeks_dotThen ahead_namePart
    · exact parts_cons_run.2 ⟨star, w, last, hstar, hlast, rfl⟩

/-- A dotted name and the semicolon behind it. -/
def Named (allowStar : Bool) (ts : List Token) : Prop :=
  ∃ t us, ts = t :: us ∧ isIdentifier t = true ∧ NameEnd allowStar us

theorem recognizes_named (allowStar : Bool) :
    Recognizes (parts [one (qualifiedName allowStar), tok (take ";")]) (Named allowStar) := by
  have hflat : Recognizes
      (parts [tok takeIdentifier, furtherNames, starPart allowStar, tok (take ";")])
      (Named allowStar) := Recognizes.takeIf (recognizes_nameEnd allowStar)
  intro t u
  rw [← hflat t u]
  constructor
  · rintro ⟨_, h⟩
    obtain ⟨name, v, _, hname, hend, rfl⟩ := parts_one_run.1 h
    obtain ⟨_, hparts, _⟩ := build_run.1 hname
    exact ⟨_, (parts_append_run [_, _, _] [_]).2 ⟨_, v, _, hparts, hend, rfl⟩⟩
  · rintro ⟨_, h⟩
    obtain ⟨_, v, _, hparts, hend, _⟩ := (parts_append_run [_, _, _] [_]).1 h
    exact ⟨_, parts_one_run.2 ⟨_, v, _, build_run.2 ⟨_, hparts, rfl⟩, hend, rfl⟩⟩

/-! ### Clauses -/

/-- The tokens of a package clause. -/
def PackageForm (ts : List Token) : Prop :=
  ∃ t us, ts = t :: us ∧ isSign t "package" = true ∧ Named false us

/-- The tokens of an import clause. -/
def ImportForm (ts : List Token) : Prop :=
  ∃ t us, ts = t :: us ∧ isSign t "import" = true ∧
    (Named true us ∨ ∃ static vs, us = static :: vs ∧ isSign static "static" = true ∧ Named true vs)

theorem recognizes_packageClause : Recognizes packageClause PackageForm :=
  (Recognizes.takeIf (recognizes_named false)).build _

theorem recognizes_importClause : Recognizes importClause ImportForm := by
  refine (Recognizes.takeIf ?_).build _
  intro t u
  constructor
  · rintro ⟨es, h⟩
    obtain ⟨static, v, _, hstatic, hrest, rfl⟩ := parts_cons_run.1 h
    obtain ⟨taken, hpasses, hname⟩ := (recognizes_named true v u).1 ⟨_, hrest⟩
    obtain ⟨present, w, hpresent, hstatic⟩ := bind_run.1 hstatic
    cases peeks_sees hpresent
    cases present with
    | false =>
        obtain ⟨rfl, rfl⟩ := pure_run.1 hstatic
        exact ⟨taken, hpasses, .inl hname⟩
    | true =>
        obtain ⟨_, hpasses', x, rfl, hx⟩ := (recognizes_takeIf.tok t v).1 ⟨_, hstatic⟩
        exact ⟨_, hpasses'.trans hpasses, .inr ⟨x, taken, rfl, hx, hname⟩⟩
  · rintro ⟨taken, hpasses, hname | ⟨x, vs, rfl, hx, hname⟩⟩
    · obtain ⟨es, hes⟩ := (recognizes_named true t u).2 ⟨taken, hpasses, hname⟩
      obtain ⟨first, us, rfl, hfirst, _⟩ := hname
      have hnone : sees "static" 0 t = .ok (false, t) := by
        rw [sees_run, hpasses.nth_zero, isSign_of_isIdentifier hfirst]
      exact ⟨_, parts_cons_run.2 ⟨[], t, es, bind_run.2 ⟨false, t, hnone, rfl⟩, hes, rfl⟩⟩
    · obtain ⟨v, hstatic, hrest⟩ := (@Tokens.Passes.append_iff t u [x] _).1 hpasses
      obtain ⟨es, hes⟩ := (recognizes_named true v u).2 ⟨vs, hrest, hname⟩
      obtain ⟨static, hstatic⟩ : ∃ static, tok (take "static") t = .ok (static, v) :=
        (recognizes_takeIf.tok t v).2 ⟨_, hstatic, x, rfl, hx⟩
      have hpresent : sees "static" 0 t = .ok (true, t) := by
        rw [sees_run, hpasses.nth_zero, hx]
      exact ⟨_, parts_cons_run.2 ⟨static, v, es, bind_run.2 ⟨true, t, hpresent, hstatic⟩, hes, rfl⟩⟩

theorem importClauses_run {clauses : List (List Token)} (hclauses : ∀ c ∈ clauses, ImportForm c)
    {t u : Tokens} (hpasses : t.Passes clauses.flatten u)
    (hend : isSign (u.nth 0) "import" = false) :
    ∃ es, manyWhile (sees "import") (one importClause) t = .ok (es, u) := by
  have htakes : ∀ {t u es}, one importClause t = .ok (es, u) → u.ahead.length < t.ahead.length := by
    intro t u es h
    obtain ⟨n, hn, _⟩ := one_run.1 h
    obtain ⟨_, hpasses, _, _, rfl, _⟩ := (recognizes_importClause t u).1 ⟨n, hn⟩
    rw [hpasses.length]
    simp
  have hrepeats : ∃ es, Repeats (sees "import") (one importClause) t es u := by
    induction clauses generalizing t with
    | nil =>
        obtain rfl := Tokens.Passes.nil_iff.1 hpasses
        refine ⟨[], .done ?_⟩
        rw [sees_run, hend]
    | cons c clauses ih =>
        obtain ⟨v, hfirst, hbehind⟩ := Tokens.Passes.append_iff.1 hpasses
        have hc := hclauses c List.mem_cons_self
        obtain ⟨n, hn⟩ := (recognizes_importClause t v).2 ⟨c, hfirst, hc⟩
        obtain ⟨es, hes⟩ := ih (fun d hd => hclauses d (List.mem_cons_of_mem c hd)) hbehind
        obtain ⟨x, us, rfl, hx, _⟩ := hc
        refine ⟨[.node n] ++ es, .more ?_ (one_run.2 ⟨n, hn, rfl⟩) hes⟩
        rw [sees_run, hfirst.nth_zero, hx]
  obtain ⟨es, hes⟩ := hrepeats
  exact ⟨es, hes.manyWhile peeks_sees htakes⟩

theorem importClauses_of_run {t u : Tokens} {es : List Element} (ht : t.Genuine)
    (h : manyWhile (sees "import") (one importClause) t = .ok (es, u)) :
    ∃ items : List Node, es = items.map .node ∧ t.Passes (items.flatMap Node.lexemes) u ∧
      (∀ n ∈ items, n.kind = .java .importClause ∧ ImportForm n.lexemes) ∧
        isSign (u.nth 0) "import" = false := by
  have hrepeats := repeats_of_manyWhile peeks_sees h
  clear h
  induction hrepeats with
  | done h =>
      rw [sees_run] at h
      exact ⟨[], rfl, .refl _, nofun, congrArg Prod.fst (Except.ok.inj h)⟩
  | more _ hone _ ih =>
      obtain ⟨n, hn, rfl⟩ := one_run.1 hone
      have hgrown := grows_importClause ht hn
      obtain ⟨items, rfl, hpasses, hitems, hend⟩ := ih (hgrown.passes.genuine ht)
      obtain ⟨taken, htaken, hform⟩ := (recognizes_importClause _ _).1 ⟨n, hn⟩
      rw [htaken.unique hgrown.passes] at hform
      refine ⟨n :: items, rfl, hgrown.passes.trans hpasses, fun m hm => ?_, hend⟩
      rcases List.mem_cons.1 hm with rfl | hm
      · exact ⟨build_kind hn, hform⟩
      · exact hitems m hm

theorem ImportForm.ends {ts : List Token} (h : ImportForm ts) :
    ∃ word us semicolon, ts = word :: (us ++ [semicolon]) ∧ isSign word "import" = true ∧
      isSign semicolon ";" = true := by
  have hend : ∀ {us : List Token}, NameEnd true us →
      ∃ vs semicolon, us = vs ++ [semicolon] ∧ isSign semicolon ";" = true := by
    intro us hus
    induction hus with
    | @semicolon semicolon h => exact ⟨[], semicolon, rfl, h⟩
    | @part dot t _ _ _ _ ih =>
        obtain ⟨vs, semicolon, rfl, h⟩ := ih
        exact ⟨dot :: t :: vs, semicolon, rfl, h⟩
    | @star dot t semicolon _ _ _ h => exact ⟨[dot, t], semicolon, rfl, h⟩
  obtain ⟨word, us, rfl, hword, ⟨t, vs, rfl, _, hvs⟩ | ⟨static, _, rfl, _, t, vs, rfl, _, hvs⟩⟩ := h
  · obtain ⟨ws, semicolon, rfl, h⟩ := hend hvs
    exact ⟨word, t :: ws, semicolon, rfl, hword, h⟩
  · obtain ⟨ws, semicolon, rfl, h⟩ := hend hvs
    exact ⟨word, static :: t :: ws, semicolon, rfl, hword, h⟩

/-! ### Other words and other trivia -/

theorem NameEnd.lookalike {allowStar : Bool} {ts us : List Token} (h : NameEnd allowStar ts)
    (hsame : List.Forall₂ Lookalike ts us) : NameEnd allowStar us := by
  induction h generalizing us with
  | semicolon h =>
      obtain _ | ⟨ht, ⟨⟩⟩ := hsame
      exact .semicolon (ht.isSign ";" ▸ h)
  | part hdot ht _ ih =>
      obtain _ | ⟨hdot', _ | ⟨ht', hsame⟩⟩ := hsame
      exact .part (hdot'.isSign "." ▸ hdot) (ht'.isIdentifier ▸ ht) (ih hsame)
  | star hallow hdot ht h =>
      obtain _ | ⟨hdot', _ | ⟨ht', _ | ⟨h', ⟨⟩⟩⟩⟩ := hsame
      exact .star hallow (hdot'.isSign "." ▸ hdot) (ht'.isSign "*" ▸ ht) (h'.isSign ";" ▸ h)

theorem Named.lookalike {allowStar : Bool} {ts us : List Token} (h : Named allowStar ts)
    (hsame : List.Forall₂ Lookalike ts us) : Named allowStar us := by
  obtain ⟨t, ts, rfl, ht, hname⟩ := h
  obtain _ | ⟨ht', hsame⟩ := hsame
  exact ⟨_, _, rfl, ht'.isIdentifier ▸ ht, hname.lookalike hsame⟩

theorem PackageForm.lookalike {ts us : List Token} (h : PackageForm ts)
    (hsame : List.Forall₂ Lookalike ts us) : PackageForm us := by
  obtain ⟨t, ts, rfl, ht, hname⟩ := h
  obtain _ | ⟨ht', hsame⟩ := hsame
  exact ⟨_, _, rfl, ht'.isSign "package" ▸ ht, hname.lookalike hsame⟩

theorem ImportForm.lookalike {ts us : List Token} (h : ImportForm ts)
    (hsame : List.Forall₂ Lookalike ts us) : ImportForm us := by
  obtain ⟨t, ts, rfl, ht, hname⟩ := h
  obtain _ | ⟨ht', hsame⟩ := hsame
  refine ⟨_, _, rfl, ht'.isSign "import" ▸ ht, ?_⟩
  rcases hname with hname | ⟨static, ts, rfl, hstatic, hname⟩
  · exact .inl (hname.lookalike hsame)
  · obtain _ | ⟨hstatic', hsame⟩ := hsame
    exact .inr ⟨_, _, rfl, hstatic'.isSign "static" ▸ hstatic, hname.lookalike hsame⟩

end Grammar

end Codemod.Java
