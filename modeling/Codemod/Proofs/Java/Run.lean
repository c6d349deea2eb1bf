import Codemod.Java.Parser.Basic
import Codemod.Proofs.Java.Tokens

/-!
Successful runs of parsers: what each of the basic steps takes from the tokens ahead, and what
two steps take one behind another.
-/

namespace Codemod.Java

open Codemod.Tree

namespace Tokens

/-- The tokens that lie between one state and a later one. -/
def Passes (start : Tokens) (taken : List Token) (finish : Tokens) : Prop :=
  finish.last = start.last ∧
    ∃ front : List Lexed, start.ahead = front ++ finish.ahead ∧ front.map Lexed.token = taken

namespace Passes

theorem refl (t : Tokens) : t.Passes [] t :=
  ⟨rfl, [], rfl, rfl⟩

theorem trans {t u v : Tokens} {xs ys : List Token} (h : t.Passes xs u) (h' : u.Passes ys v) :
    t.Passes (xs ++ ys) v := by
  obtain ⟨hlast, front, hfront, rfl⟩ := h
  obtain ⟨hlast', front', hfront', rfl⟩ := h'
  refine ⟨hlast'.trans hlast, front ++ front', ?_, List.map_append⟩
  rw [hfront, hfront', List.append_assoc]

theorem genuine {t u : Tokens} {xs : List Token} (h : t.Passes xs u) (ht : t.Genuine) :
    u.Genuine := by
  obtain ⟨_, front, hfront, _⟩ := h
  intro lexed hmem
  exact ht lexed (hfront ▸ List.mem_append_right front hmem)

theorem mem_genuine {t u : Tokens} {xs : List Token} (h : t.Passes xs u) (ht : t.Genuine)
    {x : Token} (hx : x ∈ xs) : Java.Genuine x := by
  obtain ⟨_, front, hfront, rfl⟩ := h
  obtain ⟨lexed, hmem, rfl⟩ := List.mem_map.1 hx
  exact ht lexed (hfront ▸ List.mem_append_left _ hmem)

theorem length {t u : Tokens} {xs : List Token} (h : t.Passes xs u) :
    t.ahead.length = xs.length + u.ahead.length := by
  obtain ⟨_, front, hfront, rfl⟩ := h
  rw [hfront, List.length_append, List.length_map]

end Passes

end Tokens

theorem text_of_isSign {t : Token} {text : String} (h : isSign t text = true) : t.text = text := by
  simp only [isSign, Bool.and_eq_true, beq_iff_eq] at h
  exact h.2

theorem eq_punct {t : Token} {text : String} (ht : Genuine t) (h : isSign t text = true)
    (htext : isKeyword text = false) : t = ⟨.punct, t.lead, text⟩ := by
  obtain ⟨kind, lead, text'⟩ := t
  simp only [isSign, Bool.and_eq_true, Bool.or_eq_true, beq_iff_eq] at h
  obtain ⟨rfl | rfl, rfl⟩ := h
  · rfl
  · exact absurd (htext.symm.trans (ht.isKeyword rfl)) (by decide)

namespace Parser

variable {α β : Type}

theorem bind_run {p : Parser α} {f : α → Parser β} {t v : Tokens} {b : β} :
    (p >>= f) t = .ok (b, v) ↔ ∃ a u, p t = .ok (a, u) ∧ f a u = .ok (b, v) := by
  refine bind_eq_ok.trans ⟨?_, ?_⟩
  · rintro ⟨⟨a, u⟩, hp, hf⟩
    exact ⟨a, u, hp, hf⟩
  · rintro ⟨a, u, hp, hf⟩
    exact ⟨(a, u), hp, hf⟩

theorem pure_run {a b : α} {t u : Tokens} :
    (pure a : Parser α) t = .ok (b, u) ↔ b = a ∧ u = t := by
  show Except.ok (a, t) = Except.ok (b, u) ↔ _
  simp [eq_comm]

theorem cond_run {c : Parser Bool} {p q : Parser α} {t u : Tokens} {a : α}
    (h : (do if ← c then p else q : Parser α) t = .ok (a, u)) :
    ∃ v, p v = .ok (a, u) ∨ q v = .ok (a, u) := by
  obtain ⟨b, v, _, h⟩ := bind_run.1 h
  cases b
  · exact ⟨v, .inr h⟩
  · exact ⟨v, .inl h⟩

theorem test_run (p : Token → Bool) (n : Nat) (t : Tokens) :
    test p n t = .ok (p (t.nth n), t) :=
  rfl

theorem sees_run (text : String) (n : Nat) (t : Tokens) :
    sees text n t = .ok (isSign (t.nth n) text, t) :=
  rfl

theorem fail_run {error : Nat → ParseError} {t u : Tokens} {a : α} :
    fail error t ≠ .ok (a, u) :=
  nofun

theorem expected_run {wanted : Wanted} {t u : Tokens} {a : α} :
    expected wanted t ≠ .ok (a, u) :=
  nofun

theorem takeIf_cons (p : Token → Bool) (wanted : Wanted) (lexed last : Lexed)
    (rest : List Lexed) :
    takeIf p wanted ⟨lexed :: rest, last⟩ =
      if p lexed.token then .ok (lexed.token, ⟨rest, last⟩)
      else expected wanted ⟨lexed :: rest, last⟩ := by
  by_cases hp : p lexed.token = true
  · rw [if_pos hp]
    show (if p lexed.token then _ else _ : Parser Token) _ = _
    rw [if_pos hp]
    rfl
  · rw [if_neg hp]
    show (if p lexed.token then _ else _ : Parser Token) _ = _
    rw [if_neg hp]

theorem takeIf_run {p : Token → Bool} {wanted : Wanted} {t u : Tokens} {a : Token} :
    takeIf p wanted t = .ok (a, u) ↔
      ∃ lexed rest, t = ⟨lexed :: rest, t.last⟩ ∧ u = ⟨rest, t.last⟩ ∧ a = lexed.token ∧
        p a = true := by
  obtain ⟨ahead, last⟩ := t
  cases ahead with
  | nil => exact ⟨nofun, nofun⟩
  | cons lexed rest =>
      rw [takeIf_cons]
      constructor
      · intro h
        split_ifs at h with hp
        · cases h
          exact ⟨lexed, rest, rfl, rfl, rfl, hp⟩
        · exact absurd h expected_run
      · rintro ⟨_, _, h, rfl, rfl, hp⟩
        cases h
        rw [if_pos hp]

theorem takeIf_passes {t u : Tokens} {p : Token → Bool} {wanted : Wanted} {a : Token}
    (h : takeIf p wanted t = .ok (a, u)) : t.Passes [a] u ∧ p a = true := by
  obtain ⟨lexed, rest, ht, rfl, rfl, hp⟩ := takeIf_run.1 h
  refine ⟨⟨rfl, [lexed], ?_, rfl⟩, hp⟩
  rw [ht]
  rfl

theorem take_passes {t u : Tokens} {text : String} {a : Token} (ht : t.Genuine)
    (h : take text t = .ok (a, u)) (htext : isKeyword text = false) :
    t.Passes [⟨.punct, a.lead, text⟩] u ∧ a = ⟨.punct, a.lead, text⟩ := by
  obtain ⟨hpasses, hsign⟩ := takeIf_passes h
  have ha := eq_punct (hpasses.mem_genuine ht (by simp)) hsign htext
  exact ⟨ha ▸ hpasses, ha⟩

end Parser

end Codemod.Java
