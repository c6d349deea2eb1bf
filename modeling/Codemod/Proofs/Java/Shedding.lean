import Codemod.Proofs.Java.Comments
import Codemod.Proofs.Java.Respacing
import Codemod.Proofs.Java.Shape
import Mathlib.Logic.Relation

/-!
Semicolons that leave a list of tokens, with their comments moved in front of the token behind them.
The tokens that stay split off as before: the token in front of the semicolons does not go on into
what now stands behind it.
-/

namespace Codemod.Java

open Codemod.Tree Scan

/-- The comments in front of some tokens. -/
def commentsOf (ts : List Token) : List (List Char) :=
  ts.flatMap fun t => comments t.lead.toList

theorem commentsOf_cons (t : Token) (ts : List Token) :
    commentsOf (t :: ts) = comments t.lead.toList ++ commentsOf ts :=
  List.flatMap_cons

theorem commentsOf_append (ts us : List Token) :
    commentsOf (ts ++ us) = commentsOf ts ++ commentsOf us :=
  List.flatMap_append

/-- The comments in front of some tokens, each of which is closed. -/
inductive Commented : List Token → List (List Char) → Prop where
  | nil : Commented [] []
  | cons {t : Token} {ts : List Token} {ks ls : List (List Char)} (h : Trivia t.lead.toList ks)
      (hs : Commented ts ls) : Commented (t :: ts) (ks ++ ls)

/-- The token is a sign with which no other begins. -/
def isTight (t : Token) : Bool :=
  t.text == "\x7b" || endsClause t

/-- The token closes a list. -/
def closes (t : Token) : Bool :=
  t.text == "\x7d" || t.text == ")"

/-- Semicolons go, and the token behind them takes over their comments. -/
inductive Shed : List Token → List Token → Prop where
  | step (front : List Token) {before t : Token} {drops behind : List Token} (lead : String)
      (hbefore : isTight before = true ∨ isNoSlash before = true ∧ closes t = true)
      (hdrops : ∀ d ∈ drops, d.text = ";") (hbehind : closes t = true ∨ behind ≠ [])
      (hlead : ∀ ks ls, Commented drops ks → Trivia t.lead.toList ls →
        Trivia lead.toList (ks ++ ls)) :
      Shed (front ++ before :: (drops ++ t :: behind))
        (front ++ before :: { t with lead } :: behind)

/-- Semicolons go at any number of places. -/
abbrev Sheds : List Token → List Token → Prop :=
  Relation.ReflTransGen Shed

/-! ### Signs that read by themselves -/

theorem text_of_isTight {t : Token} (h : isTight t = true) :
    t.text = "\x7b" ∨ t.text = ";" ∨ t.text = "\x7d" := by
  simpa [isTight, endsClause] using h

theorem reads_tight {kind : TokenKind} {text : String}
    (htext : text = "\x7b" ∨ text = ";" ∨ text = "\x7d")
    {rest : List Char} (h : Reads kind text.toList rest) (rest' : List Char) :
    Reads kind text.toList rest' := by
  rcases htext with rfl | rfl | rfl
  all_goals
    obtain ⟨c, cs, heq, hread⟩ := h
    cases heq
    refine ⟨_, _, rfl, fun offset => ?_⟩
    have hkind := hread offset
    cases hkind
    rfl

theorem kind_of_slash {kind : TokenKind} {rest : List Char} (h : Reads kind ['/'] rest) :
    kind = .punct := by
  obtain ⟨c, cs, heq, hread⟩ := h
  cases heq
  have hkind := hread 0
  have hnumber : startsNumber ('/' :: rest) = false := rfl
  rw [List.nil_append, tokenText, if_neg (by decide), hnumber, if_neg Bool.false_ne_true,
    if_neg (by decide), if_neg (by decide)] at hkind
  cases hsign : sign? ('/' :: rest) with
  | some sign =>
      rw [hsign] at hkind
      exact (congrArg Prod.fst (Except.ok.inj hkind)).symm
  | none =>
      rw [hsign] at hkind
      cases hkind

/-! ### The text behind the token in front -/

theorem guarded_cons {c : Char} {cs : List Char} (h : Inert c) : Guarded (c :: cs) := by
  rintro _ ⟨⟩
  exact h

theorem guarded_print {t : Token} {ts : List Token} {c : Char} {cs rest : List Char}
    (hlead : Skips t.lead.toList rest) (htext : t.text.toList = c :: cs) (hc : Inert c) :
    Guarded (printTokens (t :: ts)).toList := by
  rw [print_cons, htext]
  generalize t.lead.toList = lead at hlead
  cases lead with
  | nil => exact guarded_cons hc
  | cons d lead => exact guarded_of_head fun x hx => by cases hx; exact hlead.head

theorem severed_print {t before : Token} {ts : List Token} {rest rest' : List Char}
    (hbefore : Reads before.kind before.text.toList rest') (hslash : isNoSlash before = true)
    (hlead : Skips t.lead.toList rest) (ht : closes t = true) :
    Severed before.kind before.text.toList (printTokens (t :: ts)).toList := by
  intro c hc
  have hstops : continuesWord c = false := by
    rw [print_cons] at hc
    generalize t.lead.toList = lead at hlead hc
    cases lead with
    | nil =>
        have htext : t.text = "\x7d" ∨ t.text = ")" := by simpa [closes] using ht
        rcases htext with htext | htext <;> rw [htext] at hc <;> cases hc <;> decide
    | cons d lead =>
        cases hc
        rcases hlead.head with hblank | rfl
        · exact continuesWord_of_isBlank hblank
        · decide
  refine ⟨fun htext => ?_, .inr hstops⟩
  rw [htext] at hbefore
  have hpunct := kind_of_slash hbefore
  have hslash' : before.text = "/" := String.toList_inj.1 htext
  simp [isNoSlash, hpunct, hslash'] at hslash

/-! ### One step -/

theorem commented_of_scans {drops ts : List Token} (h : Scans (drops ++ ts)) (hts : ts ≠ []) :
    Scans ts ∧ ∃ ks, Commented drops ks ∧ commentsOf drops = ks := by
  induction drops with
  | nil => exact ⟨h, [], .nil, rfl⟩
  | cons d drops ih =>
      rw [List.cons_append] at h
      generalize hrest : drops ++ ts = rest at h ih
      cases h with
      | last => exact absurd (List.append_eq_nil_iff.1 hrest).2 hts
      | cons hsplits hscans =>
          obtain ⟨hscans', ks, hks, heq⟩ := ih hscans
          obtain ⟨c, cs, htext, -⟩ := hsplits.reads
          obtain ⟨ls, hls⟩ := trivia_of_skips hsplits.skips (by simp [htext])
          refine ⟨hscans', ls ++ ks, .cons hls hks, ?_⟩
          rw [commentsOf_cons, hls.comments, heq]

/-- The tokens scan, with the same comments, and a scan in front of them cannot tell them apart. -/
structure Rescans (ts ts' : List Token) : Prop where
  scans : Scans ts'
  comments : commentsOf ts' = commentsOf ts
  alike : Alike (printTokens ts).toList (printTokens ts').toList
  head : (printTokens ts').toList.head? = (printTokens ts).toList.head?

theorem head_print {t : Token} {rest : List Char} (ts ts' : List Token)
    (h : Reads t.kind t.text.toList rest) :
    (printTokens (t :: ts')).toList.head? = (printTokens (t :: ts)).toList.head? := by
  obtain ⟨c, cs, htext, -⟩ := h
  rw [print_cons, print_cons, htext]
  cases t.lead.toList <;> rfl

theorem Rescans.cons {t : Token} {ts ts' : List Token} (h : Rescans ts ts')
    (hsplits : Splits t (printTokens ts).toList) : Rescans (t :: ts) (t :: ts') where
  scans := .cons (hsplits.alike h.alike (.inl h.head)) h.scans
  comments := congrArg (Java.comments t.lead.toList ++ ·) h.comments
  alike := by
    rw [print_cons, print_cons]
    exact (h.alike.append _).append _
  head := head_print _ _ hsplits.reads

theorem scans_cons {t : Token} {ts : List Token} (h : Scans (t :: ts)) (hts : ts ≠ []) :
    Splits t (printTokens ts).toList ∧ Scans ts := by
  cases h with
  | last => exact absurd rfl hts
  | cons hsplits hscans => exact ⟨hsplits, hscans⟩

theorem inert_closes {t : Token} (h : closes t = true) :
    ∃ c, t.text.toList = [c] ∧ Inert c := by
  have htext : t.text = "\x7d" ∨ t.text = ")" := by simpa [closes] using h
  rcases htext with htext | htext <;> rw [htext]
  · exact ⟨'\x7d', rfl, inert_of_class (p := (· == '\x7d')) (by decide) (by decide) (by decide) rfl⟩
  · exact ⟨')', rfl, inert_of_class (p := (· == ')')) (by decide) (by decide) (by decide) rfl⟩

theorem inert_tight {t : Token} (h : isTight t = true) :
    ∃ c, t.text.toList = [c] ∧ Inert c ∧ Text.isBlank c = false ∧ c ≠ '/' := by
  rcases text_of_isTight h with htext | htext | htext <;> rw [htext]
  · exact ⟨'\x7b', rfl, inert_of_class (p := (· == '\x7b')) (by decide) (by decide) (by decide) rfl,
      by decide, by decide⟩
  · exact ⟨';', rfl, inert_semicolon, by decide, by decide⟩
  · exact ⟨'\x7d', rfl, inert_of_class (p := (· == '\x7d')) (by decide) (by decide) (by decide) rfl,
      by decide, by decide⟩

theorem rescans_before {before : Token} {rest rest' : List Token} (hscans : Scans rest')
    (hcomments : commentsOf rest' = commentsOf rest) (h : Splits before (printTokens rest).toList)
    (hbefore : isTight before = true ∨ Guarded (printTokens rest).toList ∧
      Guarded (printTokens rest').toList ∧
        Severed before.kind before.text.toList (printTokens rest').toList) :
    Rescans (before :: rest) (before :: rest') := by
  have hhead := head_print rest rest' h.reads
  refine ⟨.cons ?_ hscans, congrArg (comments before.lead.toList ++ ·) hcomments, ?_, hhead⟩
  · rcases hbefore with htight | ⟨hrest, hrest', hsevered⟩
    · obtain ⟨c, htext, -, hblank, hslash⟩ := inert_tight htight
      refine ⟨h.skips.before (by simp [htext]) ?_,
        reads_tight (text_of_isTight htight) h.reads _⟩
      rw [htext]
      exact skips_nil_cons.2 ⟨hblank, fun heq => absurd heq hslash⟩
    · exact h.alike (.guarded hrest hrest') (.inr hsevered)
  · rw [print_cons, print_cons]
    refine Alike.append ?_ _
    rcases hbefore with htight | ⟨hrest, hrest', -⟩
    · obtain ⟨c, htext, hinert, -⟩ := inert_tight htight
      rw [htext]
      exact .guarded (guarded_cons hinert) (guarded_cons hinert)
    · exact (Alike.guarded hrest hrest').append _

theorem Shed.rescans {ts ts' : List Token} (h : Shed ts ts') (hscans : Scans ts) :
    Rescans ts ts' := by
  obtain ⟨front, lead, hbefore, hdrops, hbehind, hlead⟩ := h
  rename_i before t drops behind
  induction front with
  | cons x front ih =>
      obtain ⟨hsplits, hrest⟩ := scans_cons hscans (by simp)
      exact (ih hrest).cons hsplits
  | nil =>
      rw [List.nil_append] at hscans ⊢
      obtain ⟨hsplits, hrest⟩ := scans_cons hscans (by simp)
      obtain ⟨hat, ks, hks, hdropped⟩ := commented_of_scans hrest (List.cons_ne_nil t behind)
      have hne : behind ≠ [] := by
        rintro rfl
        cases hat with
        | last => simp [closes] at hbehind
        | cons _ hnil => cases hnil
      obtain ⟨ht, hscans'⟩ := scans_cons hat hne
      obtain ⟨c, cs, htext, -⟩ := ht.reads
      obtain ⟨ls, hls⟩ := trivia_of_skips ht.skips (by simp [htext])
      have hclosed := hlead ks ls hks hls
      have hskips := skips_of_closed hclosed ht.skips.stops
      have ht' : Splits { t with lead } (printTokens behind).toList := ⟨hskips, ht.reads⟩
      refine rescans_before (.cons ht' hscans') ?_ hsplits (hbefore.imp_right ?_)
      · rw [commentsOf_append, commentsOf_cons, commentsOf_cons, hclosed.comments, hls.comments,
          hdropped, List.append_assoc]
      · rintro ⟨hslash, hcloses⟩
        obtain ⟨d, hd, hinert⟩ := inert_closes hcloses
        refine ⟨?_, guarded_print (t := { t with lead }) hskips hd hinert,
          severed_print (t := { t with lead }) hsplits.reads hslash hskips hcloses⟩
        cases drops with
        | nil => exact guarded_print ht.skips hd hinert
        | cons e drops =>
            obtain ⟨he, -⟩ := scans_cons hrest (by simp)
            have hsemicolon : e.text.toList = [';'] := by rw [hdrops e List.mem_cons_self]; rfl
            exact guarded_print he.skips hsemicolon inert_semicolon

theorem Sheds.scans {ts ts' : List Token} (h : Sheds ts ts') (hscans : Scans ts) :
    Scans ts' ∧ commentsOf ts' = commentsOf ts := by
  induction h with
  | refl => exact ⟨hscans, rfl⟩
  | tail _ hstep ih =>
      obtain ⟨hscans', hcomments⟩ := ih
      have hrescans := hstep.rescans hscans'
      exact ⟨hrescans.scans, hrescans.comments.trans hcomments⟩

/-! ### Places in a list -/

section
variable {ts ts' : List Token}

theorem Shed.append_left (h : Shed ts ts') (us : List Token) : Shed (us ++ ts) (us ++ ts') := by
  obtain ⟨front, lead, hbefore, hdrops, hbehind, hlead⟩ := h
  rw [← List.append_assoc, ← List.append_assoc]
  exact .step (us ++ front) lead hbefore hdrops hbehind hlead

theorem Shed.append_right (h : Shed ts ts') (us : List Token) : Shed (ts ++ us) (ts' ++ us) := by
  obtain ⟨front, lead, hbefore, hdrops, hbehind, hlead⟩ := h
  simp only [List.append_assoc, List.cons_append]
  exact .step front lead hbefore hdrops
    (hbehind.imp_right fun h hnil => h (List.append_eq_nil_iff.1 hnil).1) hlead

theorem Shed.leadTokens (h : Shed ts ts') (trivia : String) :
    Shed (leadTokens trivia ts) (leadTokens trivia ts') := by
  obtain ⟨front, lead, hbefore, hdrops, hbehind, hlead⟩ := h
  cases front with
  | nil => exact .step [] lead hbefore hdrops hbehind hlead
  | cons x front =>
      exact .step ({ x with lead := trivia ++ x.lead } :: front) lead hbefore hdrops hbehind hlead

theorem Shed.last (h : Shed ts ts') {p : Token → Bool}
    (hp : ∀ (t : Token) (lead : String), p { t with lead } = p t)
    (hts : ∃ front t, ts = front ++ [t] ∧ p t = true) :
    ∃ front t, ts' = front ++ [t] ∧ p t = true := by
  obtain ⟨front, lead, -, -, -, -⟩ := h
  rename_i before t drops behind
  obtain ⟨others, last, heq, hlast⟩ := hts
  have hsame := congrArg List.getLast? heq
  obtain rfl | ⟨behind, other, rfl⟩ := List.eq_nil_or_concat behind
  · obtain rfl : t = last := by simpa [List.getLast?_cons] using hsame
    exact ⟨front ++ [before], { t with lead }, by simp, by rwa [hp]⟩
  · obtain rfl : other = last := by simpa [List.getLast?_cons] using hsame
    exact ⟨front ++ before :: { t with lead } :: behind, other, by simp, hlast⟩

theorem Sheds.append_left (h : Sheds ts ts') (us : List Token) : Sheds (us ++ ts) (us ++ ts') :=
  h.lift (us ++ ·) fun _ _ hstep => hstep.append_left us

theorem Sheds.append_right (h : Sheds ts ts') (us : List Token) : Sheds (ts ++ us) (ts' ++ us) :=
  h.lift (· ++ us) fun _ _ hstep => hstep.append_right us

theorem Sheds.append (h : Sheds ts ts') {us us' : List Token} (h' : Sheds us us') :
    Sheds (ts ++ us) (ts' ++ us') :=
  (h.append_right us).trans (h'.append_left ts')

theorem Sheds.leadTokens (h : Sheds ts ts') (trivia : String) :
    Sheds (leadTokens trivia ts) (leadTokens trivia ts') :=
  h.lift (Tree.leadTokens trivia) fun _ _ hstep => hstep.leadTokens trivia

theorem Sheds.eq_nil (h : Sheds ts ts') : ts' = [] ↔ ts = [] := by
  induction h with
  | refl => exact Iff.rfl
  | tail _ hstep ih =>
      rw [← ih]
      obtain ⟨front, lead, -⟩ := hstep
      simp

theorem Sheds.last (h : Sheds ts ts') {p : Token → Bool}
    (hp : ∀ (t : Token) (lead : String), p { t with lead } = p t)
    (hts : ∃ front t, ts = front ++ [t] ∧ p t = true) :
    ∃ front t, ts' = front ++ [t] ∧ p t = true := by
  induction h with
  | refl => exact hts
  | tail _ hstep ih => exact hstep.last hp ih

end

end Codemod.Java
