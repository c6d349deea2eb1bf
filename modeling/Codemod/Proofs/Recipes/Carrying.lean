import Codemod.Proofs.Recipes.Deletion
import Codemod.Proofs.Yaml.Written

/-!
What a deletion writes in front of the entries that stay. It is put together from lines of trivia,
so it is trivia again, and the entries are written as before.
-/

namespace Codemod.Recipes.Deletion

open Codemod.Tree Codemod.Yaml

/-! ### Pieces of trivia -/

theorem isTrivia_front {front behind : List Char} (h : IsTrivia (front ++ behind)) :
    ∃ comment, commentBehind false front = some comment ∧
      (commentBehind comment behind).isSome = true := by
  rw [IsTrivia, commentBehind_append] at h
  cases hfront : commentBehind false front with
  | none =>
      rw [hfront] at h
      cases h
  | some comment =>
      rw [hfront] at h
      exact ⟨comment, rfl, h⟩

theorem isTrivia_behind {front behind : List Char} (h : IsTrivia (front ++ '\n' :: behind)) :
    commentBehind false (front ++ ['\n']) = some false ∧ IsTrivia behind := by
  obtain ⟨comment, hfront, hbehind⟩ := isTrivia_front h
  rw [commentBehind_break] at hbehind
  refine ⟨?_, hbehind⟩
  rw [commentBehind_append, hfront]
  exact commentBehind_break comment []

theorem fromBreak_cases (cs : List Char) :
    (∃ behind, fromBreak cs = '\n' :: behind ∧
      cs = cs.takeWhile (· != '\n') ++ '\n' :: behind) ∨
      fromBreak cs = [] ∧ cs = cs.takeWhile (· != '\n') := by
  have hsplit := List.takeWhile_append_dropWhile (p := (· != '\n')) (l := cs)
  cases hrest : cs.dropWhile (· != '\n') with
  | nil =>
      rw [hrest, List.append_nil] at hsplit
      exact .inr ⟨hrest, hsplit.symm⟩
  | cons c behind =>
      have hc : c = '\n' := by
        have hstop := List.head?_dropWhile_not (· != '\n') cs
        rw [hrest] at hstop
        simpa using hstop
      subst hc
      rw [hrest] at hsplit
      exact .inl ⟨behind, hrest, hsplit.symm⟩

theorem commentBehind_skipBlankLines {line cs : List Char} {comment : Bool}
    (hline : commentBehind false line = some comment) (hcs : commentBehind false cs = some comment) :
    commentBehind false (skipBlankLines line cs) = some comment := by
  fun_induction skipBlankLines line cs with
  | case1 => exact hline
  | case2 line rest ih =>
      have hrest : commentBehind false rest = some comment := hcs
      exact ih hrest hrest
  | case3 line c rest hbreak hblank ih =>
      refine ih hline ?_
      rw [commentBehind] at hcs
      split_ifs at hcs with hspace hsign
      · exact hcs
      · rw [hsign] at hblank
        cases hblank
  | case4 => exact hline

theorem isTrivia_withoutBlankLines {cs : List Char} (h : IsTrivia cs) :
    IsTrivia (withoutBlankLines cs) := by
  obtain ⟨comment, hcomment⟩ := Option.isSome_iff_exists.1 h
  rw [IsTrivia, withoutBlankLines, commentBehind_skipBlankLines hcomment hcomment]
  rfl

/-! ### What is left to the element behind -/

/-- What a deleted entry leaves is trivia: whole lines, or part of one. -/
def Carry.IsTrivia : Carry → Prop
  | .leading lines => commentBehind false lines = some false
  | .tail comment => Yaml.IsTrivia comment

theorem isTrivia_leadingLines {lead : String} (h : IsTrivia lead.toList) :
    (Carry.leading (leadingLines lead)).IsTrivia := by
  unfold leadingLines
  cases hsplit : Text.splitLast '\n' lead.toList with
  | none => rfl
  | some parts =>
      obtain ⟨front, behind⟩ := parts
      rw [Text.splitLast_eq_some hsplit] at h
      exact (isTrivia_behind h).1

theorem isTrivia_lineTail {lead : String} (h : IsTrivia lead.toList) :
    (Carry.tail (lineTail lead)).IsTrivia := by
  unfold lineTail
  simp only
  split_ifs
  · have hsplit := List.takeWhile_append_dropWhile (p := (· != '\n')) (l := lead.toList)
    rw [← hsplit] at h
    obtain ⟨comment, hfront, _⟩ := isTrivia_front h
    rw [Carry.IsTrivia, IsTrivia, hfront]
    rfl
  · rfl

theorem isTrivia_onto {carry : Carry} {lead : String} (hcarry : carry.IsTrivia)
    (hlead : IsTrivia lead.toList) : IsTrivia (carry.onto lead).toList := by
  have hrest : (∃ behind, fromBreak lead.toList = '\n' :: behind ∧ IsTrivia behind) ∨
      fromBreak lead.toList = [] := by
    rcases fromBreak_cases lead.toList with ⟨behind, hrest, hlead'⟩ | ⟨hnil, _⟩
    · rw [hlead'] at hlead
      exact .inl ⟨behind, hrest, (isTrivia_behind hlead).2⟩
    · exact .inr hnil
  cases carry with
  | leading lines =>
      rw [Carry.onto, String.toList_ofList, IsTrivia, commentBehind_append, hcarry]
      refine isTrivia_withoutBlankLines ?_
      rcases hrest with ⟨behind, hrest, hbehind⟩ | hnil
      · rw [hrest]
        exact hbehind
      · rw [hnil]
        rfl
  | tail comment =>
      obtain ⟨open?, hopen⟩ := Option.isSome_iff_exists.1 hcarry
      rw [Carry.onto, String.toList_ofList, IsTrivia, commentBehind_append, hopen, Option.bind_some]
      rcases hrest with ⟨behind, hrest, hbehind⟩ | hnil
      · rw [hrest, commentBehind_break]
        exact hbehind
      · rw [hnil]
        rfl

/-! ### Entries -/

theorem writtenEntry_of_tokens {n n' : Node} (hkind : n'.kind = n.kind) (htokens : n'.tokens = n.tokens)
    (hlead : IsTrivia n'.lead.toList) (h : WrittenEntry n) : WrittenEntry n' := by
  refine ⟨hlead, fun {key} hfound => h.key ?_, htokens ▸ h.colon⟩
  rwa [entryKey?, hkind, htokens] at hfound

/-- All that was left at mappings is trivia. -/
def Orphans.IsTrivia (orphans : Orphans) : Prop :=
  ∀ o ∈ orphans, o.2.IsTrivia

theorem isTrivia_at {orphans : Orphans} (h : orphans.IsTrivia) {path : List Nat} {carry : Carry}
    (hfound : orphans.at? path = some carry) : carry.IsTrivia := by
  obtain ⟨o, ho, rfl⟩ := Option.map_eq_some_iff.1 hfound
  exact h o (List.mem_of_find?_eq_some ho)

/-- What is kept of a mapping is written as entries, and what is left behind is trivia. -/
structure Progress.Written (p : Progress) : Prop where
  kept : ∀ c, Element.node c ∈ p.kept → c.Everywhere Yaml.Written
  carry : ∀ carry ∈ p.carry?, carry.IsTrivia

theorem everywhere_written_lead {n : Node} {lead : String} (h : n.Everywhere Yaml.Written)
    (hlead : n.kind = .yaml .entry → IsTrivia lead.toList) :
    ({ n with lead } : Node).Everywhere Yaml.Written := by
  obtain ⟨hn, hchildren⟩ := everywhere_iff.1 h
  exact everywhere_iff.2 ⟨fun hkind => writtenEntry_of_tokens (n := n) rfl rfl (hlead hkind)
    (hn hkind), hchildren⟩

theorem Progress.Written.delete {p : Progress} {entry : Node} (hp : p.Written)
    (hlead : IsTrivia entry.lead.toList) : (p.delete entry).Written := by
  refine ⟨hp.kept, fun carry hcarry => ?_⟩
  rw [Progress.delete] at hcarry
  obtain rfl := Option.some.inj hcarry
  cases hleft : p.carry? with
  | some carry => exact hp.carry carry hleft
  | none =>
      rw [Option.getD_none]
      split_ifs
      · exact isTrivia_leadingLines hlead
      · exact isTrivia_lineTail hlead

theorem Progress.Written.keep {p : Progress} {entry : Node} {orphan : Option Carry} (hp : p.Written)
    (hentry : entry.Everywhere Yaml.Written) (hlead : IsTrivia entry.lead.toList)
    (horphan : ∀ carry ∈ orphan, carry.IsTrivia) : (p.keep entry orphan).Written := by
  refine ⟨fun c hc => ?_, horphan⟩
  rw [Progress.keep, List.mem_append, List.mem_singleton] at hc
  rcases hc with hc | hc
  · exact hp.kept c hc
  · cases hc
    cases hleft : p.carry? with
    | none => exact hentry
    | some carry =>
        exact everywhere_written_lead hentry fun _ => isTrivia_onto (hp.carry carry hleft) hlead

theorem sweep_written {target : Target} {enclosing : List String} {orphans : Orphans}
    {path : List Nat} (horphans : orphans.IsTrivia) {index : Nat} {p : Progress} {es : List Element}
    (hp : p.Written) (hes : ∀ c, Element.node c ∈ es →
      c.kind = .yaml .entry ∧ c.Everywhere Yaml.Written) :
    (sweep target enclosing orphans path index p es).Written := by
  induction es generalizing index p with
  | nil => exact hp
  | cons e es ih =>
      have hrest := fun c hc => hes c (List.mem_cons_of_mem e hc)
      cases e with
      | token t =>
          refine ih ⟨fun c hc => ?_, hp.carry⟩ hrest
          rcases List.mem_append.1 hc with hc | hc
          · exact hp.kept c hc
          · cases List.mem_singleton.1 hc
      | node entry =>
          obtain ⟨hkind, hwritten⟩ := hes entry List.mem_cons_self
          have hlead := (hwritten entry (mem_preorder_self entry) hkind).lead
          rw [sweep]
          refine ih ?_ hrest
          split_ifs
          · exact hp.delete hlead
          · refine hp.keep hwritten hlead fun carry hcarry => ?_
            obtain ⟨value, _, hfound⟩ := Option.bind_eq_some_iff.1 hcarry
            exact isTrivia_at horphans hfound

theorem eq_of_leftBehind {enclosing : List String} {carry? : Option Carry} {carry : Carry}
    (h : leftBehind enclosing carry? = some carry) : carry? = some carry := by
  rcases carry? with _ | lines | comment
  · cases h
  · rw [leftBehind] at h
    split_ifs at h
    exact h
  · exact h

/-! ### The walk -/

/-- A visit of a shaped node keeps its entries written as such. -/
def KeepsWritten : VisitRelation Orphans :=
  fun n s n' _ s' => WellWritten n → s.IsTrivia →
    n'.kind = n.kind ∧ n'.Everywhere Yaml.Written ∧ s'.IsTrivia

theorem written_of_swept {es es' : List Element} {s s' : Orphans} {changed : Bool}
    (h : Swept KeepsWritten es s es' changed s') (hes : ∀ c, Element.node c ∈ es → WellWritten c)
    (hs : s.IsTrivia) :
    es'.filterMap Element.token? = es.filterMap Element.token? ∧
      (∀ c', Element.node c' ∈ es' → c'.Everywhere Yaml.Written ∧
        ∃ c, Element.node c ∈ es ∧ c'.kind = c.kind) ∧ s'.IsTrivia := by
  induction h with
  | nil => exact ⟨rfl, nofun, hs⟩
  | @token t _ _ _ _ _ _ ih =>
      obtain ⟨htokens, hnodes, hs'⟩ := ih (fun c hc => hes c (List.mem_cons_of_mem _ hc)) hs
      refine ⟨congrArg (t :: ·) htokens, fun c' hc' => ?_, hs'⟩
      rcases List.mem_cons.1 hc' with hc' | hc'
      · cases hc'
      · obtain ⟨hwritten, c, hc, hkind⟩ := hnodes c' hc'
        exact ⟨hwritten, c, List.mem_cons_of_mem _ hc, hkind⟩
  | @node n _ _ _ _ _ _ _ _ hn _ ih =>
      obtain ⟨hkind, hwritten, hs⟩ := hn (hes n List.mem_cons_self) hs
      obtain ⟨htokens, hnodes, hs'⟩ := ih (fun c hc => hes c (List.mem_cons_of_mem _ hc)) hs
      refine ⟨htokens, fun c' hc' => ?_, hs'⟩
      rcases List.mem_cons.1 hc' with hc' | hc'
      · cases hc'
        exact ⟨hwritten, n, List.mem_cons_self, hkind⟩
      · obtain ⟨hwritten, c, hc, hkind⟩ := hnodes c' hc'
        exact ⟨hwritten, c, List.mem_cons_of_mem _ hc, hkind⟩

theorem mapping_written {target : Target} {n : Node} (cursor : Cursor) {s : Orphans}
    (hkind : n.kind = .yaml .mapping) (hs : s.IsTrivia) (hn : ∀ c, Element.node c ∈ n.children →
      c.kind = .yaml .entry ∧ c.Everywhere Yaml.Written) :
    ((mapping target n cursor s).1.getD n).kind = n.kind ∧
      ((mapping target n cursor s).1.getD n).Everywhere Yaml.Written ∧
        (mapping target n cursor s).2.IsTrivia := by
  have hentry : n.kind ≠ .yaml .entry := by simp [hkind]
  have hself : n.kind = n.kind ∧ n.Everywhere Yaml.Written ∧ s.IsTrivia :=
    ⟨rfl, everywhere_iff.2 ⟨written_other hentry, fun c hc => (hn c hc).2⟩, hs⟩
  rw [mapping]
  simp only
  split_ifs
  · exact hself
  · have hp : (sweep target (enclosingPath cursor) s cursor.path 0 {} n.children).Written :=
      sweep_written hs ⟨by simp, by simp⟩ hn
    refine ⟨rfl, everywhere_iff.2 ⟨written_other hentry, hp.kept⟩, fun o ho => ?_⟩
    rcases List.mem_append.1 ho with ho | ho
    · obtain ⟨carry, hcarry, rfl⟩ := List.mem_map.1 ho
      rw [Option.mem_toList] at hcarry
      exact hp.carry carry (eq_of_leftBehind hcarry)
    · exact hs o ho
  · exact hself

theorem leaves_keepsWritten (target : Target) : (visitor target).Leaves KeepsWritten := by
  intro n cursor s s' es' changed hswept v left hn hs
  obtain ⟨htokens, hnodes, hs'⟩ := written_of_swept hswept (fun c hc => hn.child hc) hs
  by_cases hmapping : n.kind = .yaml .mapping
  · have hleft : left = mapping target v cursor s' := leave_mapping (n := v) hmapping
    rw [hleft]
    refine mapping_written (n := v) cursor hmapping hs' fun c' hc' => ?_
    obtain ⟨hwritten, c, hc, hkind⟩ := hnodes c' hc'
    obtain ⟨_, ⟨⟩, hentry⟩ :=
      (mapping_of_shaped hn.shaped (mem_preorder_self n) hmapping).2 _ hc
    exact ⟨hkind.trans hentry, hwritten⟩
  · have hdocument : n.kind ≠ .yaml .document := by
      intro hkind
      cases hn.shaped <;> simp_all
    have hleft : left = (none, s') := leave_inner (n := v) hmapping hdocument
    rw [hleft]
    refine ⟨rfl, everywhere_iff.2 ⟨fun hentry => ?_, fun c' hc' => (hnodes c' hc').1⟩, hs'⟩
    have hwritten := hn.written n (mem_preorder_self n) hentry
    exact writtenEntry_of_tokens (n := n) rfl htokens hwritten.lead hwritten

theorem document_nodes {v v' : Node} {s : Orphans} (h : document v s = some v') :
    v'.kind = v.kind ∧ ∀ c, Element.node c ∈ v'.children → Element.node c ∈ v.children := by
  obtain ⟨i, _, h⟩ := Option.bind_eq_some_iff.1 h
  obtain ⟨m, _, h⟩ := Option.bind_eq_some_iff.1 h
  obtain ⟨carry, _, h⟩ := Option.bind_eq_some_iff.1 h
  obtain ⟨index, _, h⟩ := Option.bind_eq_some_iff.1 h
  obtain ⟨child, _, h⟩ := Option.bind_eq_some_iff.1 h
  obtain ⟨last, _, h⟩ := Option.bind_eq_some_iff.1 h
  split_ifs at h
  · cases h
    exact ⟨rfl, fun c hc => by simp at hc⟩
  · cases h
    refine ⟨rfl, fun c hc => ?_⟩
    rcases List.mem_or_eq_of_mem_set hc with hc | hc
    · exact hc
    · cases hc

/-- The document without the entries that the target selects. -/
def deleted (target : Target) (d : Node) : Node :=
  ((visitor target).walk d []).1.getD d

/-- The entries of a document stay written as such. -/
theorem walk_written (target : Target) {d : Node} (hd : DocumentShaped d)
    (hwritten : d.Everywhere Yaml.Written) : (deleted target d).Everywhere Yaml.Written := by
  have haccepts : (visitor target).accepts d = true := by
    show (d.kind == .yaml .document) = true
    simp [hd.kind]
  obtain ⟨cursor, es', _, s, hswept, hresult, _⟩ :=
    Visitor.walk_left (fun _ _ _ => rfl) (leaves_keepsWritten target) haccepts []
  obtain ⟨_, hnodes, _⟩ := written_of_swept hswept
    (fun c hc => ⟨(hd.child hc).2, (everywhere_iff.1 hwritten).2 c hc⟩) nofun
  obtain ⟨v, hv⟩ : ∃ v : Node, v = { d with children := es' } := ⟨_, rfl⟩
  have hkind : v.kind = .yaml .document := by rw [hv]; exact hd.kind
  have hother : ∀ {n : Node}, n.kind = .yaml .document → Yaml.Written n := fun h =>
    written_other (by simp [h])
  have hleave : (visitor target).leave v cursor s = (document v s, s) := by
    show Hooks.leave _ v cursor s = _
    rw [Hooks.leave, hkind]
  simp only [← hv] at hresult
  rw [deleted, hresult, hleave]
  cases hmade : document v s with
  | none =>
      refine everywhere_iff.2 ⟨hother hkind, fun c hc => (hnodes c ?_).1⟩
      rwa [hv] at hc
  | some v' =>
      obtain ⟨hkind', hsubset⟩ := document_nodes hmade
      refine everywhere_iff.2 ⟨hother (hkind'.trans hkind), fun c hc => (hnodes c ?_).1⟩
      have hc := hsubset c hc
      rwa [hv] at hc

end Codemod.Recipes.Deletion
