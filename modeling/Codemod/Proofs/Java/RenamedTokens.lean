import Codemod.Proofs.Java.Literals
import Codemod.Proofs.Java.Respacing

/-!
Another name in place of some identifiers of a text. No token of a text that parses grows together
with the new name or falls apart because of it, since no identifier stands directly behind a
literal; and what stands behind a semicolon can be any text. The main statement says that the tokens
of a text with some identifiers renamed, and with some of its statements written twice, are split
off again.
-/

namespace Codemod.Java

open Codemod.Tree

/-- The text is one identifier and nothing else. -/
def IsIdentifier (name : String) : Prop :=
  ∃ tokens, tokenize name = .ok tokens ∧
    tokens.toList.map Lexed.token = [⟨.identifier, "", name⟩, ⟨.eof, "", ""⟩]

namespace Scan

/-! ### Words -/

/-- The characters are those of a word. -/
def IsWord (cs : List Char) : Prop :=
  ∃ c rest, cs = c :: rest ∧ startsWord c = true ∧ ∀ d ∈ rest, continuesWord d = true

theorem reads_word {cs rest : List Char} (hword : IsWord cs)
    (hrest : ∀ c ∈ rest.head?, continuesWord c = false) :
    Reads (wordKind (String.ofList cs)) cs rest := by
  obtain ⟨c, cs, rfl, hc, hcs⟩ := hword
  obtain ⟨htake, hdrop⟩ := takeWhile_of_head hcs hrest
  refine ⟨c, cs, rfl, fun offset => ?_⟩
  rw [tokenText, if_pos hc, htake, hdrop]

theorem kind_of_tokenText {offset : Nat} {c : Char} {cs text left : List Char} {kind : TokenKind}
    (hc : startsWord c = false) (h : tokenText offset c cs = .ok (kind, text, left)) :
    kind = .literal ∨ kind = .punct := by
  rw [tokenText, hc, if_neg Bool.false_ne_true] at h
  split_ifs at h
  · cases h
    exact .inl rfl
  · split at h <;> cases h
    exact .inl rfl
  · split at h <;> cases h
    exact .inl rfl
  · split at h <;> cases h
    exact .inr rfl

theorem kind_of_reads {kind : TokenKind} {cs rest : List Char} (h : Reads kind cs rest) :
    kind = .identifier ∨ kind = .keyword ∨ kind = .literal ∨ kind = .punct := by
  obtain ⟨c, cs, rfl, htext⟩ := h
  have htext := htext 0
  cases hc : startsWord c with
  | false => exact .inr (.inr (kind_of_tokenText hc htext))
  | true =>
      rw [tokenText, if_pos hc, Except.ok.injEq, Prod.mk.injEq] at htext
      rw [← htext.1, wordKind]
      split_ifs <;> simp

theorem word_of_reads {kind : TokenKind} {cs rest : List Char} (h : Reads kind cs rest)
    (hkind : kind = .identifier ∨ kind = .keyword) :
    IsWord cs ∧ kind = wordKind (String.ofList cs) ∧ ∀ c ∈ rest.head?, continuesWord c = false := by
  obtain ⟨c, cs, rfl, htext⟩ := h
  have hword : startsWord c = true := by
    by_contra hc
    rcases kind_of_tokenText (Bool.not_eq_true _ ▸ hc) (htext 0) with rfl | rfl <;> simp at hkind
  have h := htext 0
  rw [tokenText, if_pos hword] at h
  simp only [Except.ok.injEq, Prod.mk.injEq, List.cons.injEq, true_and] at h
  obtain ⟨hkind', htaken, hleft⟩ := h
  refine ⟨⟨c, cs, rfl, hword, fun d hd => ?_⟩, ?_, fun d hd => ?_⟩
  · rw [← htaken] at hd
    exact List.mem_takeWhile_imp hd
  · rw [← hkind', htaken]
  · rw [← hleft] at hd
    simpa [Option.mem_def.1 hd] using List.head?_dropWhile_not continuesWord (cs ++ rest)

theorem Skips.word {lead cs rest rest' : List Char} (h : Skips lead rest) (hrest : rest ≠ [])
    (hword : IsWord cs) : Skips lead (cs ++ rest') := by
  obtain ⟨c, cs, rfl, hc, _⟩ := hword
  have hblank : Text.isBlank c = false :=
    not_isBlank_of_continuesWord (continuesWord_of_startsWord hc)
  refine h.before hrest (skips_nil_cons.2 ⟨hblank, ?_⟩)
  rintro rfl
  exact absurd hc (by decide)

theorem reads_semicolon (rest : List Char) : Reads .punct [';'] rest := by
  refine ⟨';', [], rfl, fun offset => ?_⟩
  have hsign : sign? (';' :: rest) = some ";" := by
    cases rest <;> rfl
  have hnumber : startsNumber (';' :: rest) = false := startsNumber_of_ne_dot (by decide) rest
  rw [List.nil_append, tokenText, if_neg (by decide), hnumber, if_neg (by decide),
    if_neg (by decide), if_neg (by decide), hsign]
  rfl

/-! ### Renamed tokens -/

/-- The second list is the first one with another name in place of some identifiers, up to a
semicolon behind which any tokens can stand. -/
inductive Edits (name : String) : List Token → List Token → Prop where
  | nil : Edits name [] []
  | keep {t : Token} {ts us : List Token} (h : Edits name ts us) : Edits name (t :: ts) (t :: us)
  | rename {t : Token} {ts us : List Token} (hkind : t.kind = .identifier) (h : Edits name ts us) :
      Edits name (t :: ts) ({ t with text := name } :: us)
  | behind {t : Token} {ts us : List Token} (hkind : t.kind = .punct) (htext : t.text = ";")
      (h : Scans us) : Edits name (t :: ts) (t :: us)

/-- The second list starts like the first one, or with another word in place of an identifier, and
the scan cannot tell the two apart in their front. -/
structure Stands (ts us : List Token) : Prop where
  alike : Alike (printTokens ts).toList (printTokens us).toList
  head : (printTokens us).toList.head? = (printTokens ts).toList.head? ∨
    ∃ t ∈ ts.head?, t.kind = .identifier ∧
      ∃ c d, (printTokens ts).toList.head? = some c ∧ startsWord c = true ∧
        (printTokens us).toList.head? = some d ∧ startsWord d = true

theorem Stands.refl (ts : List Token) : Stands ts ts :=
  ⟨.refl _, .inl rfl⟩

theorem stands_keep {t : Token} {ts us : List Token} {rest : List Char} (h : Splits t rest)
    (halike : Alike (t.text.toList ++ (printTokens ts).toList)
      (t.text.toList ++ (printTokens us).toList)) : Stands (t :: ts) (t :: us) := by
  constructor
  · rw [print_cons, print_cons]
    exact halike.append _
  · left
    obtain ⟨c, cs, htext, -⟩ := h.reads
    rw [print_cons, print_cons, htext]
    cases t.lead.toList <;> rfl

theorem Splits.stands {t : Token} {ts us : List Token} (h : Splits t (printTokens ts).toList)
    (hstands : Stands ts us)
    (hapart : t.kind = .literal → ∀ t' ∈ ts.head?, t'.kind ≠ .identifier) :
    Splits t (printTokens us).toList := by
  refine h.alike hstands.alike (hstands.head.imp_right ?_)
  rintro ⟨t', ht', hkind, c, d, hc, hcword, hd, hdword⟩
  have hword : ¬ (t.kind = .identifier ∨ t.kind = .keyword) := by
    intro hkind
    have hstop := (word_of_reads h.reads hkind).2.2 c hc
    rw [continuesWord_of_startsWord hcword] at hstop
    cases hstop
  have hpunct : t.kind = .punct := by
    rcases kind_of_reads h.reads with hk | hk | hk | hk
    · exact absurd (.inl hk) hword
    · exact absurd (.inr hk) hword
    · exact absurd hkind (hapart hk t' ht')
    · exact hk
  intro d' hd'
  obtain rfl : d = d' := Option.some.inj (hd.symm.trans hd')
  refine ⟨fun _ => ?_, .inl hpunct⟩
  constructor <;> rintro rfl <;> exact absurd hdword (by decide)

variable {name : String}

section
variable (hname : IsIdentifier name)
include hname

theorem word_of_isIdentifier : IsWord name.toList ∧ wordKind name = .identifier := by
  obtain ⟨tokens, htokens, hlist⟩ := hname
  have hscans := scans_tokensWithin htokens
  rw [hlist] at hscans
  cases hscans with
  | cons hsplits _ =>
      obtain ⟨hword, hkind, _⟩ := word_of_reads hsplits.reads (.inl rfl)
      rw [String.ofList_toList] at hkind
      exact ⟨hword, hkind.symm⟩

theorem Splits.rename {t : Token} {ts us : List Token} (h : Splits t (printTokens ts).toList)
    (hkind : t.kind = .identifier) (hstands : Stands ts us) :
    Splits { t with text := name } (printTokens us).toList := by
  obtain ⟨hword, hidentifier⟩ := word_of_isIdentifier hname
  obtain ⟨⟨_, _, htext, _, _⟩, _, hstop⟩ := word_of_reads h.reads (.inl hkind)
  refine ⟨h.skips.word (by simp [htext]) hword, ?_⟩
  have hread : Reads (wordKind (String.ofList name.toList)) name.toList (printTokens us).toList :=
    reads_word hword fun d hd => ?_
  · rw [String.ofList_toList, hidentifier] at hread
    rw [hkind]
    exact hread
  · rcases hstands.head with hsame | ⟨_, _, _, c, _, hc, hcword, _⟩
    · exact hstop d (hsame ▸ hd)
    · have hcontinues := hstop c hc
      rw [continuesWord_of_startsWord hcword] at hcontinues
      cases hcontinues

theorem stands_rename {t : Token} {ts us : List Token} (h : Splits t (printTokens ts).toList)
    (hkind : t.kind = .identifier) : Stands (t :: ts) ({ t with text := name } :: us) := by
  obtain ⟨⟨c, cs, hc, hcword, _⟩, _, _⟩ := word_of_reads h.reads (.inl hkind)
  obtain ⟨⟨d, ds, hd, hdword, _⟩, _⟩ := word_of_isIdentifier hname
  have hguarded : ∀ {c : Char} {cs : List Char}, startsWord c = true → Guarded (c :: cs) := by
    rintro c cs hc _ ⟨⟩
    exact inert_of_startsWord hc
  constructor
  · rw [print_cons, print_cons, hc, hd]
    exact (Alike.guarded (hguarded hcword) (hguarded hdword)).append _
  · rw [print_cons, print_cons, hc, hd]
    cases hlead : t.lead.toList with
    | nil => exact .inr ⟨t, rfl, hkind, c, d, rfl, hcword, rfl, hdword⟩
    | cons b lead => exact .inl rfl

theorem scans_edits {ts us : List Token} {pending : Bool} (hscans : Scans ts)
    (hapart : Apart pending ts) (h : Edits name ts us) : Scans us ∧ Stands ts us := by
  induction h generalizing pending with
  | nil => cases hscans
  | @keep t ts us h ih =>
      cases hscans with
      | last hlead =>
          cases h
          exact ⟨.last hlead, .refl _⟩
      | cons hsplits hs =>
          obtain ⟨hus, hstands⟩ := ih hs hapart.2
          refine ⟨.cons (hsplits.stands hstands ?_) hus, stands_keep hsplits (hstands.alike.append _)⟩
          intro hliteral t' ht' hkind
          obtain ⟨rest, rfl⟩ := List.head?_eq_some_iff.1 ht'
          have hnone := hapart.2.1 hkind
          rw [hliteral] at hnone
          cases hnone
  | @rename t ts us hkind h ih =>
      cases hscans with
      | last => cases hkind
      | cons hsplits hs =>
          obtain ⟨hus, hstands⟩ := ih hs hapart.2
          exact ⟨.cons (hsplits.rename hname hkind hstands) hus, stands_rename hname hsplits hkind⟩
  | @behind t ts us hkind htext hus =>
      cases hscans with
      | last => cases hkind
      | cons hsplits hs =>
          have hsemicolon : t.text.toList = [';'] := by
            rw [htext]
            rfl
          have hguarded : ∀ cs, Guarded (t.text.toList ++ cs) := by
            intro cs c hc
            rw [hsemicolon] at hc
            cases hc
            exact inert_semicolon
          refine ⟨.cons ⟨?_, ?_⟩ hus, stands_keep hsplits (.guarded (hguarded _) (hguarded _))⟩
          · refine hsplits.skips.before (by simp [hsemicolon]) ?_
            rw [hsemicolon]
            exact skips_nil_cons.2 ⟨by decide, fun h => absurd h (by decide)⟩
          · rw [hkind, hsemicolon]
            exact reads_semicolon _

end

theorem Edits.refl (ts : List Token) : Edits name ts ts := by
  induction ts with
  | nil => exact .nil
  | cons t ts ih => exact .keep ih

theorem Edits.lead {ts us : List Token} (h : Edits name ts us) (lead : String) :
    Edits name (leadTokens lead ts) (leadTokens lead us) := by
  cases h with
  | nil => exact .nil
  | keep h => exact .keep h
  | rename hkind h => exact .rename hkind h
  | behind hkind htext h => exact .behind hkind htext h

theorem Scans.behind {ts us : List Token} (h : Scans (ts ++ us)) (hus : us ≠ []) : Scans us := by
  induction ts with
  | nil => exact h
  | cons t ts ih =>
      rw [List.cons_append] at h
      generalize hrest : ts ++ us = rest at h
      cases h with
      | last => exact absurd (List.append_eq_nil_iff.1 hrest).2 hus
      | cons _ h =>
          subst hrest
          exact ih h

theorem Scans.splits {t : Token} {ts : List Token} (h : Scans (t :: ts)) (hts : ts ≠ []) :
    Splits t (printTokens ts).toList ∧ Scans ts := by
  cases h with
  | last => exact absurd rfl hts
  | cons hsplits hs => exact ⟨hsplits, hs⟩

theorem Scans.relead {t : Token} {ts : List Token} (h : Scans (t :: ts)) (hts : ts ≠ [])
    {lead : String} (hlead : Skips lead.toList t.text.toList) : Scans ({ t with lead } :: ts) := by
  obtain ⟨hsplits, hs⟩ := h.splits hts
  obtain ⟨c, cs, htext, -⟩ := hsplits.reads
  exact .cons ⟨hlead.before (by simp [htext]) hsplits.skips.stops, hsplits.reads⟩ hs

theorem Scans.wordKind {ts : List Token} (h : Scans ts) {t : Token} (ht : t ∈ ts)
    (hkind : t.kind = .identifier ∨ t.kind = .keyword) : t.kind = Java.wordKind t.text := by
  induction h with
  | @last lead _ =>
      cases List.mem_singleton.1 ht
      simp at hkind
  | cons hsplits _ ih =>
      rcases List.mem_cons.1 ht with rfl | ht
      · obtain ⟨_, hword, _⟩ := word_of_reads hsplits.reads hkind
        rwa [String.ofList_toList] at hword
      · exact ih ht

theorem apart_leadTokens {pending : Bool} {lead : String} {ts : List Token} :
    Apart pending (leadTokens lead ts) ↔ Apart pending ts := by
  cases ts <;> rfl

end Scan

/-! ### Statements -/

/-- The token under another name if it is an identifier, or as it is. -/
def Renamed (name : String) (t t' : Token) : Prop :=
  t' = t ∨ t.kind = .identifier ∧ t' = { t with text := name }

/-- The tokens with some of them renamed; or behind them, where they end in a semicolon, again with
some of them renamed and with other trivia in front. -/
inductive Rewrites (name : String) : List Token → List Token → Prop where
  | renamed {ts us : List Token} (h : List.Forall₂ (Renamed name) ts us) : Rewrites name ts us
  | doubled {t t' semicolon : Token} {ts us : List Token} {lead : String}
      (h : List.Forall₂ (Renamed name) (t :: ts) (t' :: us))
      (hlast : ts.getLast? = some semicolon) (hkind : semicolon.kind = .punct)
      (htext : semicolon.text = ";") (hlead : Scan.Skips lead.toList t'.text.toList) :
      Rewrites name (t :: ts) (t :: ts ++ { t' with lead } :: us)

namespace Scan

variable {name : String}

theorem edits_renamed {ps qs ts us : List Token} (h : List.Forall₂ (Renamed name) ps qs)
    (hrest : Edits name ts us) : Edits name (ps ++ ts) (qs ++ us) := by
  induction h with
  | nil => exact hrest
  | cons ht _ ih =>
      rcases ht with rfl | ⟨hkind, rfl⟩
      · exact .keep ih
      · exact .rename hkind ih

theorem edits_behind {front ts us : List Token} {semicolon : Token} (hkind : semicolon.kind = .punct)
    (htext : semicolon.text = ";") (h : Scans us) :
    Edits name (front ++ semicolon :: ts) (front ++ semicolon :: us) := by
  induction front with
  | nil => exact .behind hkind htext h
  | cons t front ih => exact .keep ih

theorem edits_rewrites (hname : IsIdentifier name) {ps qs : List (List Token)} {rest : List Token}
    (hrest : rest ≠ []) (h : List.Forall₂ (Rewrites name) ps qs) {lead : String} {pending : Bool}
    (hscans : Scans (leadTokens lead (ps.flatten ++ rest)))
    (hapart : Apart pending (ps.flatten ++ rest)) :
    Edits name (ps.flatten ++ rest) (qs.flatten ++ rest) := by
  induction h generalizing lead pending with
  | nil => exact .refl rest
  | @cons p q ps qs hp hps ih =>
      rw [List.flatten_cons, List.append_assoc] at hscans hapart ⊢
      rw [List.flatten_cons, List.append_assoc]
      have hbehind : Edits name (ps.flatten ++ rest) (qs.flatten ++ rest) := by
        cases p with
        | nil => exact ih hscans hapart
        | cons t ts =>
            have hne : ps.flatten ++ rest ≠ [] := by simp [hrest]
            have hscans' : Scans (leadTokens "" (ps.flatten ++ rest)) := by
              rw [leadTokens_empty]
              exact @Scans.behind (leadTokens lead (t :: ts)) _ hscans hne
            exact ih hscans' (apart_append.1 hapart).2
      cases hp with
      | renamed hp => exact edits_renamed hp hbehind
      | @doubled t t' semicolon ts us lead' hp hlast hkind htext hlead =>
          have hcopy := (edits_renamed hp hbehind).lead lead
          have hscans' := (scans_edits hname hscans (apart_leadTokens.2 hapart) hcopy).1
          have hadded : Scans ({ t' with lead := lead' } :: (us ++ (qs.flatten ++ rest))) :=
            Scans.relead (t := { t' with lead := lead ++ t'.lead }) hscans' (by simp [hrest]) hlead
          obtain ⟨front, rfl⟩ := List.getLast?_eq_some_iff.1 hlast
          have hedits : Edits name (t :: front ++ semicolon :: (ps.flatten ++ rest)) _ :=
            edits_behind hkind htext hadded
          simpa using hedits

theorem scans_rewrites (hname : IsIdentifier name) {ps qs : List (List Token)} {rest : List Token}
    (hrest : rest ≠ []) (h : List.Forall₂ (Rewrites name) ps qs) {lead : String}
    (hscans : Scans (leadTokens lead (ps.flatten ++ rest)))
    (hapart : Apart false (ps.flatten ++ rest)) :
    Scans (leadTokens lead (qs.flatten ++ rest)) :=
  (scans_edits hname hscans (apart_leadTokens.2 hapart)
    ((edits_rewrites hname hrest h hscans hapart).lead lead)).1

end Scan

end Codemod.Java
