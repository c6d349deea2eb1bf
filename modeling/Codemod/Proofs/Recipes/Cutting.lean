import Codemod.Proofs.Recipes.Reparsing
import Codemod.Proofs.Recipes.Thinning

/-!
A deletion as a recursion over the tree. The walk keeps what mappings leave by the paths of their
places; here each node hands on what it leaves itself, and an entry goes exactly if no scalar is left
under it. The main statement says that this is the tree that the walk leaves.
-/

namespace Codemod.Recipes.Deletion

open Codemod.Tree Codemod.Yaml

mutual

/-- What stays of a node, where the chain leads to it, and what it leaves to what follows it. -/
def cut (target : Target) (around : List Node) : Node → Node × Option Carry
  | n@⟨kind, lead, children, markers, type?⟩ =>
      if kind = .yaml .mapping then
        let p := cutEntries target around {} children
        (⟨kind, lead, p.kept, markers, type?⟩, leftBehind (keyPath around) p.carry?)
      else if kind = .yaml .entry then
        let (children, orphan) := cutValue target (around ++ [n]) children
        (⟨kind, lead, children, markers, type?⟩, orphan)
      else (n, none)

/-- What stays of the children of an entry, and what its value leaves. -/
def cutValue (target : Target) (around : List Node) :
    List Element → List Element × Option Carry
  | [] => ([], none)
  | .token t :: es =>
      let (es, orphan) := cutValue target around es
      (.token t :: es, orphan)
  | .node value :: es =>
      let (value, orphan) := cut target around value
      let (es, others) := cutValue target around es
      (.node value :: es, orphan <|> others)

/-- How far the children of a mapping have been gone through behind some more of them. -/
def cutEntries (target : Target) (around : List Node) (p : Progress) : List Element → Progress
  | [] => p
  | .token t :: es => cutEntries target around { p with kept := p.kept ++ [.token t] } es
  | .node e :: es =>
      let next :=
        if (target.left (leafChains around e)).isEmpty then p.delete e
        else
          let (e, orphan) := cut target around e
          p.keep e orphan
      cutEntries target around next es

end

variable {target : Target} {around : List Node}

/-! ### One node -/

section
variable {n : Node}

theorem cut_mapping (hkind : n.kind = .yaml .mapping) (around : List Node) :
    let p := cutEntries target around {} n.children
    cut target around n =
      ({ n with children := p.kept }, leftBehind (keyPath around) p.carry?) := by
  obtain ⟨kind, lead, children, markers, type?⟩ := n
  cases hkind
  rfl

theorem cut_entry {value : Node} {key colon : Token} (hkind : n.kind = .yaml .entry)
    (hes : n.children = [.token key, .token colon, .node value]) (around : List Node) :
    cut target around n =
      ({ n with children := [.token key, .token colon,
          .node (cut target (around ++ [n]) value).1] },
        (cut target (around ++ [n]) value).2) := by
  obtain ⟨kind, lead, children, markers, type?⟩ := n
  cases hkind
  cases hes
  simp [cut, cutValue]

theorem cut_scalar (hkind : n.kind = .yaml .scalar) (around : List Node) :
    cut target around n = (n, none) := by
  obtain ⟨kind, lead, children, markers, type?⟩ := n
  cases hkind
  rfl

theorem lead_cut (around : List Node) (n : Node) : (cut target around n).1.lead = n.lead := by
  obtain ⟨kind, lead, children, markers, type?⟩ := n
  rw [cut]
  split_ifs <;> rfl

theorem cutEntries_gone {e : Node} (hnil : target.left (leafChains around e) = []) (p : Progress)
    (es : List Element) :
    cutEntries target around p (.node e :: es) = cutEntries target around (p.delete e) es := by
  simp [cutEntries, hnil]

theorem cutEntries_stays {e : Node} (hleft : target.left (leafChains around e) ≠ []) (p : Progress)
    (es : List Element) :
    cutEntries target around p (.node e :: es) =
      cutEntries target around
        (p.keep (cut target around e).1 (cut target around e).2) es := by
  simp [cutEntries, hleft]

end

theorem cutEntries_same {es : List Element} (honly : EntriesOnly es)
    (hes : ∀ c, Element.node c ∈ es →
      target.left (leafChains around c) ≠ [] ∧ cut target around c = (c, none))
    {p : Progress} (hcarry : p.carry? = none) :
    (cutEntries target around p es).kept = p.kept ++ es ∧
      (cutEntries target around p es).carry? = none := by
  induction es generalizing p with
  | nil => exact ⟨by rw [cutEntries, List.append_nil], hcarry⟩
  | cons e es ih =>
      obtain ⟨⟨c, rfl, _⟩, hrest⟩ := List.forall_mem_cons.1 honly
      obtain ⟨hleft, hsame⟩ := hes c List.mem_cons_self
      rw [cutEntries_stays hleft, hsame]
      have hkept := ih hrest (fun c hc => hes c (List.mem_cons_of_mem _ hc))
        (p := p.keep c none) rfl
      simpa [Progress.keep, hcarry] using hkept

/-! ### The first entry that stays -/

theorem cutEntries_starts (p : Progress) (es : List Element) :
    p.kept <+: (cutEntries target around p es).kept := by
  induction es generalizing p with
  | nil =>
      rw [cutEntries]
  | cons e es ih =>
      cases e with
      | token t =>
          rw [cutEntries]
          exact (List.prefix_append p.kept [.token t]).trans (ih { p with kept := p.kept ++ [.token t] })
      | node e =>
          by_cases hnil : target.left (leafChains around e) = []
          · rw [cutEntries_gone hnil]
            exact ih (p.delete e)
          · rw [cutEntries_stays hnil]
            refine List.IsPrefix.trans ?_ (ih (p.keep (cut target around e).1 _))
            rw [Progress.keep_takesOver]
            exact List.prefix_append p.kept _

theorem keep_first {p : Progress} (hkept : p.kept = []) (e : Node) (orphan : Option Carry)
    (es : List Element) :
    ∃ rest, (cutEntries target around (p.keep e orphan) es).kept =
      .node { e with lead := takesOver p.carry? e.lead } :: rest := by
  obtain ⟨rest, hrest⟩ := @cutEntries_starts target around (p.keep e orphan) es
  refine ⟨rest, hrest.symm.trans ?_⟩
  rw [Progress.keep_takesOver, hkept]
  rfl

theorem cutEntries_first {es : List Element} (honly : EntriesOnly es) {p : Progress} {carry : Carry}
    (hkept : p.kept = []) (hcarry : p.carry? = some carry) :
    let q := cutEntries target around p es
    q.kept = [] ∧ q.carry? = some carry ∨
      ∃ e rest, q.kept = .node e :: rest ∧ ∃ c, Element.node c ∈ es ∧ e.lead = carry.onto c.lead := by
  induction es generalizing p with
  | nil => exact .inl ⟨hkept, hcarry⟩
  | cons e es ih =>
      obtain ⟨⟨e, rfl, _⟩, hrest⟩ := List.forall_mem_cons.1 honly
      by_cases hnil : target.left (leafChains around e) = []
      · rw [cutEntries_gone hnil]
        obtain hnone | ⟨e', rest, hq, c, hc, hlead⟩ :=
          ih hrest (p := p.delete e) hkept (by simp [Progress.delete, hcarry])
        · exact .inl hnone
        · exact .inr ⟨e', rest, hq, c, List.mem_cons_of_mem _ hc, hlead⟩
      · rw [cutEntries_stays hnil]
        obtain ⟨rest, hq⟩ := @keep_first target around p hkept (cut target around e).1
          (cut target around e).2 es
        exact .inr ⟨_, rest, hq, e, List.mem_cons_self, by simp [takesOver, hcarry, lead_cut]⟩

/-- The first entry that stays is the first one, or takes over the leading lines of that one. If none
stays, they are left. -/
theorem cutEntries_head {e : Node} {es : List Element} (honly : EntriesOnly (.node e :: es)) :
    let q := cutEntries target around {} (.node e :: es)
    q.kept = [] ∧ q.carry? = some (.leading (leadingLines e.lead)) ∨
      ∃ e' rest, q.kept = .node e' :: rest ∧ (e'.lead = e.lead ∨
        ∃ c, Element.node c ∈ es ∧ e'.lead = (Carry.leading (leadingLines e.lead)).onto c.lead) := by
  have hrest := (List.forall_mem_cons.1 honly).2
  by_cases hnil : target.left (leafChains around e) = []
  · rw [cutEntries_gone hnil]
    obtain hnone | ⟨e', rest, hkept, hlead⟩ :=
      @cutEntries_first target around es hrest (({} : Progress).delete e) _ rfl rfl
    · exact .inl hnone
    · exact .inr ⟨e', rest, hkept, .inr hlead⟩
  · rw [cutEntries_stays hnil]
    obtain ⟨rest, hq⟩ := @keep_first target around {} rfl (cut target around e).1
      (cut target around e).2 es
    exact .inr ⟨_, rest, hq, .inl (lead_cut around e)⟩

/-! ### Nodes that stay -/

theorem cut_same {n : Node} (h : Shaped n) (hclear : target.covers around = false)
    (hnone : ∀ chain ∈ entryChains around n, target.selects chain = false) :
    cut target around n = (n, none) := by
  induction h generalizing around with
  | scalar hkind => exact cut_scalar hkind around
  | @entry n value key colon hkind hes hkey hvalue h ih =>
      rw [entryChains_entry hkind hes] at hnone
      obtain ⟨hself, hnone⟩ := List.forall_mem_cons.1 hnone
      have hclear' : target.covers (around ++ [n]) = false := by
        rw [Target.covers_snoc hclear, hself]
      rw [cut_entry hkind hes, ih hclear' hnone, ← hes, eta_eq]
  | @mapping n hkind hne honly h ih =>
      have hchains : ∀ c, Element.node c ∈ n.children → ∀ chain ∈ entryChains around c,
          target.selects chain = false := by
        intro c hc chain hchain
        refine hnone chain ?_
        rw [entryChains_inner (by simp [hkind]), mem_entryChainsList]
        exact ⟨c, hc, hchain⟩
      obtain ⟨hkept, hcarry⟩ := @cutEntries_same target around n.children honly
        (fun c hc => ⟨by
          rw [Target.left_eq_self hclear (hchains c hc)]
          exact leafChains_ne_nil (h c hc) around, ih c hc hclear (hchains c hc)⟩) {} rfl
      rw [cut_mapping hkind, hkept, hcarry]
      simp [leftBehind, eta_eq]

/-! ### Visits -/

/-- What a visit makes of an entry is what stays of it, if it stays at all. -/
structure CutTo (target : Target) (around : List Node) (orphan : Option Carry) (e e' : Node) :
    Prop where
  lead : e'.lead = e.lead
  stays : target.left (leafChains around e) ≠ [] → cut target around e = (e', orphan)

theorem sweep_cut {orphans : Orphans} {path : List Nat} {index : Nat} {es es' : List Element}
    {below : Bool} (hlive : target.path.continues (keyPath around) = true)
    (h : VisitedAll target around orphans path index es es' below)
    (hcut : EachEntry (CutTo target around) orphans path index es es') (p : Progress) :
    sweep target (keyPath around) orphans path index p es' = cutEntries target around p es := by
  induction h generalizing p with
  | nil => rw [sweep, cutEntries]
  | @cons index e e' es es' changed others h _ _ ih =>
      cases hcut with
      | cons hentry hcut =>
      by_cases hnil : target.left (leafChains around e) = []
      · rw [h.sweep_gone hlive orphans path index p es' hnil, cutEntries_gone hnil, ih hcut]
        simp [Progress.delete, hentry.lead]
      · rw [h.sweep_stays hlive orphans path index p es' hnil, cutEntries_stays hnil,
          hentry.stays hnil, ih hcut]

/-- What a visit makes of a node is what stays of it, and it leaves what that leaves. -/
structure CutAt (target : Target) (cursor : Cursor) (n n' : Node) (s' : Orphans) : Prop where
  entry : n.kind = .yaml .entry → CutTo target (chainAt cursor) (s'.at? (cursor.path ++ [2])) n n'
  value : IsValue n → target.covers (chainAt cursor) = false →
    cut target (chainAt cursor) n = (n', s'.at? cursor.path)

/-- The relation of visits that leave what stays of a node. -/
def Cuts (target : Target) (cursor : Cursor) : VisitRelation Orphans :=
  fun n s n' changed s' => Shaped n → Fresh cursor.path s →
    VisitedAt target cursor n s n' changed s' ∧ CutAt target cursor n n' s'

theorem visiting_of_cuts {cursor : Cursor} {n n' : Node} {s s' : Orphans} {changed : Bool}
    (h : Cuts target cursor n s n' changed s') : Visiting target cursor n s n' changed s' :=
  fun hn hfresh => (h hn hfresh).1

theorem entry_cuts {n value value' : Node} {key colon : Token} {cursor : Cursor} {s' : Orphans}
    (hkind : n.kind = .yaml .entry) (hes : n.children = [.token key, .token colon, .node value])
    (hisValue : IsValue value) (h : CutAt target (⟨n, 2⟩ :: cursor) value value' s') :
    CutTo target (chainAt cursor) (s'.at? (cursor.path ++ [2])) n
      { n with children := [.token key, .token colon, .node value'] } := by
  refine ⟨rfl, fun hleft => ?_⟩
  have hclear : target.covers (chainAt (⟨n, 2⟩ :: cursor)) = false := by
    rw [chainAt_entry 2 cursor hkind]
    by_contra hcovers
    rw [leafChains_entry hkind hes] at hleft
    exact hleft (Target.left_eq_nil (by simpa using hcovers))
  have hvalue := h.value hisValue hclear
  rw [chainAt_entry 2 cursor hkind, path_cons] at hvalue
  rw [cut_entry hkind hes, hvalue]

section
variable {n : Node} {cursor : Cursor} {s s' : Orphans} {es' : List Element} {below : Bool}
  (hkind : n.kind = .yaml .mapping) (hn : Shaped n) (hfresh : Fresh cursor.path s)
  (h : SweptAt (Cuts target) n cursor 0 n.children s es' below s')
include hkind hn hfresh h

theorem mapping_cuts (hclear : target.covers (chainAt cursor) = false) :
    let v : Node := { n with children := es' }
    let left := mapping target v cursor s'
    cut target (chainAt cursor) n = (left.1.getD v, left.2.at? cursor.path) := by
  intro v left
  obtain ⟨hne, honly, hshaped⟩ := mapping_children hkind hn
  have hfresh' : ∀ i, 0 ≤ i → Fresh (cursor.path ++ [i]) s := fun i _ => hfresh.below [i]
  have hvisiting := h.imp fun _ _ _ _ _ _ => visiting_of_cuts
  cases hlive : target.path.continues (keyPath (chainAt cursor)) with
  | false =>
      have hleft : left = (none, s') := mapping_dead hlive
      obtain ⟨rfl, rfl, rfl⟩ := same_of_swept hkind honly hshaped hvisiting hlive hfresh'
      rw [hleft, cut_same hn hclear (Target.selects_eq_false hn hlive)]
      simpa [v, eta_eq] using (at_of_fresh hfresh []).symm
  | true =>
      obtain ⟨⟨later, hlater, hstarts, _⟩, hall⟩ :=
        visitedAll_of_swept hkind honly hshaped hvisiting hlive hfresh'
      have hcut : EachEntry (CutTo target (chainAt cursor)) s' cursor.path 0 n.children es' := by
        refine eachEntry_of_swept visiting_of_cuts (fun {index} _ _ _ _ _ hvisit hentry hpath hk =>
          ?_) hkind honly hshaped h hlive hfresh'
        rw [← path_cons n] at hpath
        have hcut := (hvisit hentry hpath).2.entry hk
        rwa [path_cons, List.append_assoc, chainAt_other index cursor (by simp [hkind])] at hcut
      have hleft : left = _ := mapping_live hlive
      have hsweep := sweep_cut hlive hall hcut {}
      simp only [v, hsweep] at hleft
      have hat : s'.at? cursor.path = none := by
        rw [hlater, at_append_of_ne fun o ho hpath => ?_]
        · simpa using at_of_fresh hfresh []
        · obtain ⟨i, _, hi⟩ := hstarts o ho
          have hlength := hi.length_le
          rw [hpath, List.length_append, List.length_singleton] at hlength
          omega
      rw [cut_mapping hkind, hleft]
      split_ifs with hchanged
      · simp [at_left hat]
      · -- A mapping that is not changed itself has the visited children and leaves nothing.
        rw [Bool.not_eq_true, ← hsweep] at hchanged
        have hkept := sweep_unchanged hlive hall rfl hchanged
        have hcarry := sweep_idle (fun _ => rfl) hchanged
        rw [← hsweep, hkept, hcarry]
        simp [leftBehind, hat, v]

end

theorem leaves_cuts (target : Target) : (visitor target).LeavesAt (Cuts target) := by
  intro n cursor s s' es' changed hswept v left hn hfresh
  refine ⟨leaves_visiting target (hswept.imp fun _ _ _ _ _ _ => visiting_of_cuts) hn hfresh, ?_⟩
  cases id hn with
  | @scalar _ t hkind hes =>
      have hleft : left = (none, s') :=
        leave_inner (n := v) (by simp [v, hkind]) (by simp [v, hkind])
      rw [hes] at hswept
      cases hswept with
      | token h =>
      cases h
      rw [hleft]
      show CutAt target cursor n ⟨n.kind, n.lead, [.token t], n.markers, n.type?⟩ s
      rw [← hes, eta_eq]
      refine ⟨by simp [hkind], fun _ _ => ?_⟩
      rw [cut_scalar hkind, show s.at? cursor.path = none by simpa using at_of_fresh hfresh []]
  | @entry _ value key colon hkind hes hkey hisValue hvalue =>
      have hleft : left = (none, s') :=
        leave_inner (n := v) (by simp [v, hkind]) (by simp [v, hkind])
      rw [hleft]
      rw [hes] at hswept
      cases hswept with
      | token h =>
      cases h with
      | token h =>
      cases h with
      | @node _ _ value' _ _ _ _ _ _ _ hvisit h =>
      cases h
      obtain ⟨_, hcut⟩ := hvisit hvalue (by
        rw [path_cons]
        exact hfresh.below [2])
      exact ⟨fun _ => entry_cuts hkind hes hisValue hcut, by simp [IsValue, hkind]⟩
  | mapping hkind hne honly h =>
      have hleft : left = mapping target v cursor s' := leave_mapping hkind
      rw [hleft]
      exact ⟨by simp [hkind], fun _ => mapping_cuts hkind hn hfresh hswept⟩

/-! ### The document -/

/-- A document without a mapping stays. -/
theorem deleted_bare (target : Target) {d : Node} (hkind : d.kind = .yaml .document)
    (htokens : ∀ e ∈ d.children, ∃ t, e = .token t) : deleted target d = d := by
  obtain ⟨es', below, s, hswept, hresult, _⟩ := walk_document (leaves_cuts target) hkind
  rw [← List.append_nil d.children] at hswept
  obtain ⟨rest, rfl, hrest⟩ := swept_tokens htokens hswept
  cases hrest
  rw [deleted, hresult, document_none, Option.getD_none, List.append_nil, eta_eq]

/-- The document with another mapping: the token at its end takes over what the mapping left, and
stands alone if no entry is left. -/
def withMapping (d : Node) (marker : List Element) (m : Node) (carry? : Option Carry)
    (last : Token) : Node :=
  let last := { last with lead := takesOver carry? last.lead }
  if m.childNodes.isEmpty then
    { d with children := [.token { last with lead := onlyComments last.lead }] }
  else { d with children := marker ++ [.node m] ++ [.token last] }

section
variable {d m : Node} {marker : List Element} {last : Token} (hd : DocumentShaped d)
  (hes : d.children = marker ++ [.node m] ++ [.token last])
  (hmarker : ∀ e ∈ marker, ∃ t : Token, e = .token t ∧ t.kind = .punct)
  (heof : last.kind = .eof)
include hd hes hmarker heof

/-- The walk leaves what stays of the mapping of a document. -/
theorem deleted_eq (target : Target) :
    deleted target d = withMapping d marker (cut target [] m).1 (cut target [] m).2 last := by
  have hkind := hd.kind
  obtain ⟨hmapping, hm⟩ := hd.child (c := m) (by simp [hes])
  obtain ⟨es', below, s, hswept, hresult, _⟩ := walk_document (leaves_cuts target) hkind
  rw [hes, List.append_assoc] at hswept
  obtain ⟨rest, rfl, hrest⟩ := swept_tokens (fun e he => by
    obtain ⟨t, ht, _⟩ := hmarker e he
    exact ⟨t, ht⟩) hswept
  rw [Nat.zero_add] at hrest
  cases hrest with
  | @node _ _ m' _ _ _ _ _ changed _ hn h =>
  cases h with
  | token h =>
  cases h
  have hroot : chainAt [⟨d, marker.length⟩] = [] := by simp [chainAt, Cursor.ancestors, hkind]
  obtain ⟨hvisited, hcut⟩ := hn hm (List.forall_mem_nil _)
  have hcut := hcut.value (.inr hmapping) (by rw [hroot]; exact covers_nil)
  have hpruned := hvisited.value (.inr hmapping) (by rw [hroot]; exact covers_nil)
  have hmapping' : m'.kind = .yaml .mapping := hpruned.kind.trans hmapping
  have hemptied := hvisited.emptied hmapping hroot
  rw [hroot] at hcut
  rw [show Cursor.path [⟨d, marker.length⟩] = [marker.length] from rfl] at hcut hemptied
  have hmade := document_eq (v := { d with children := marker ++ [.node m'] ++ [.token last] })
    hmarker hmapping' heof rfl s
  rw [List.append_assoc, List.singleton_append] at hmade
  rw [deleted, hresult, hmade, hcut, withMapping]
  cases hat : s.at? [marker.length] with
  | none =>
      -- A mapping that leaves nothing has entries that stay.
      have hleft : target.left (leafChains (chainAt [⟨d, marker.length⟩]) m) ≠ [] := fun hnil => by
        have hsome := hemptied (hpruned.emptied hnil).2
        rw [hat] at hsome
        cases hsome
      have hne := childNodes_ne_nil (hpruned.shaped hleft) (mem_preorder_self _) hmapping'
      simp [takesOver, hne]
  | some carry => simp [takesOver]

end

end Codemod.Recipes.Deletion
