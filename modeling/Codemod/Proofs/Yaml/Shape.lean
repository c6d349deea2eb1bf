import Codemod.Proofs.Tree.Everywhere
import Codemod.Proofs.Yaml.Reading

/-!
The shape of parsed documents: an entry holds its key, its colon and one value, a mapping holds
entries only and at least one, and a document holds at most one mapping.
-/

namespace Codemod.Yaml

open Codemod.Tree

/-- The node is an entry's value. -/
def IsValue (n : Node) : Prop :=
  n.kind = .yaml .scalar ∨ n.kind = .yaml .mapping

/-- The children of a mapping: entries only. -/
def EntriesOnly (es : List Element) : Prop :=
  ∀ e ∈ es, ∃ n, e = .node n ∧ n.kind = .yaml .entry

/-- A node below a document has the children of its kind, and so have those below it. -/
inductive Shaped : Node → Prop where
  | scalar {n : Node} {t : Token} (hkind : n.kind = .yaml .scalar) (hes : n.children = [.token t]) :
      Shaped n
  | entry {n value : Node} {key colon : Token} (hkind : n.kind = .yaml .entry)
      (hes : n.children = [.token key, .token colon, .node value]) (hkey : key.kind = .text)
      (hvalue : IsValue value) (h : Shaped value) : Shaped n
  | mapping {n : Node} (hkind : n.kind = .yaml .mapping) (hne : n.children ≠ [])
      (honly : EntriesOnly n.children) (h : ∀ e, Element.node e ∈ n.children → Shaped e) : Shaped n

/-- A document of a marker, a mapping, and the token at its end, of which the first two may be
missing. -/
structure DocumentShaped (n : Node) : Prop where
  kind : n.kind = .yaml .document
  children : ∃ marker mapping last, n.children = marker ++ mapping ++ [.token last] ∧
    last.kind = .eof ∧ (∀ e ∈ marker, ∃ t : Token, e = .token t ∧ t.kind = .punct) ∧
      (mapping = [] ∨ ∃ m, mapping = [.node m] ∧ m.kind = .yaml .mapping ∧ Shaped m)

theorem DocumentShaped.child {d c : Node} (h : DocumentShaped d) (hc : Element.node c ∈ d.children) :
    c.kind = .yaml .mapping ∧ Shaped c := by
  obtain ⟨_, marker, mapping, last, hes, _, hmarker, hmapping⟩ := h
  rw [hes, List.mem_append, List.mem_append, List.mem_singleton] at hc
  rcases hc with (hc | hc) | hc
  · obtain ⟨t, ht, _⟩ := hmarker _ hc
    cases ht
  · rcases hmapping with rfl | ⟨m, rfl, hm⟩
    · cases hc
    · cases List.mem_singleton.1 hc
      exact hm
  · cases hc

theorem DocumentShaped.childNodes {d : Node} (h : DocumentShaped d) :
    d.childNodes = [] ∨ ∃ m, d.childNodes = [m] ∧ m.kind = .yaml .mapping ∧ Shaped m := by
  obtain ⟨_, marker, mapping, last, hes, _, hmarker, hmapping⟩ := h
  have hnone : marker.filterMap Element.node? = [] := List.filterMap_eq_nil_iff.2 fun e he => by
    obtain ⟨t, rfl, _⟩ := hmarker e he
    rfl
  rw [Node.childNodes, hes, List.filterMap_append, List.filterMap_append, hnone]
  rcases hmapping with rfl | ⟨m, rfl, hm⟩
  · exact .inl rfl
  · exact .inr ⟨m, rfl, hm⟩

theorem shaped_scalarNode (lead raw : List Char) : Shaped (scalarNode lead raw) :=
  .scalar rfl rfl

theorem shaped_mappingNode {es : List Element} (hne : es ≠ []) (honly : EntriesOnly es)
    (h : ∀ c, Element.node c ∈ es → Shaped c) : Shaped (mappingNode es) :=
  .mapping rfl hne honly h

theorem Shaped.child {n c : Node} (h : Shaped n) (hc : Element.node c ∈ n.children) : Shaped c := by
  cases h with
  | scalar _ hes => simp [hes] at hc
  | entry _ hes _ _ h =>
      obtain rfl : c = _ := by simpa [hes] using hc
      exact h
  | mapping _ _ _ h => exact h c hc

theorem Shaped.entry_children {n : Node} (h : Shaped n) (hkind : n.kind = .yaml .entry) :
    ∃ value key colon, n.children = [.token key, .token colon, .node value] ∧ key.kind = .text ∧
      IsValue value ∧ Shaped value := by
  cases h with
  | scalar hscalar _ =>
      rw [hkind] at hscalar
      cases hscalar
  | entry _ hes hkey hvalue h => exact ⟨_, _, _, hes, hkey, hvalue, h⟩
  | mapping hmapping _ _ _ =>
      rw [hkind] at hmapping
      cases hmapping

/-- No mapping below a shaped node is without entries. -/
theorem mapping_of_shaped {n m : Node} (h : Shaped n) (hm : m ∈ n.preorder)
    (hkind : m.kind = .yaml .mapping) : m.children ≠ [] ∧ EntriesOnly m.children := by
  induction h with
  | @scalar n t hscalar hes =>
      rcases mem_preorder.1 hm with rfl | ⟨c, hc, _⟩
      · rw [hkind] at hscalar
        cases hscalar
      · simp [hes] at hc
  | @entry n value key colon hentry hes hkey hvalue h ih =>
      rcases mem_preorder.1 hm with rfl | ⟨c, hc, hmc⟩
      · rw [hkind] at hentry
        cases hentry
      · obtain rfl : c = value := by simpa [hes] using hc
        exact ih hmc
  | mapping hmapping hne honly _ ih =>
      rcases mem_preorder.1 hm with rfl | ⟨c, hc, hmc⟩
      · exact ⟨hne, honly⟩
      · exact ih c hc hmc

theorem shaped_scalarAt {indent : Nat} {p q : Place} {value : Node}
    (h : ScalarAt indent p value q) : value.kind = .yaml .scalar ∧ Shaped value := by
  cases h <;> exact ⟨rfl, shaped_scalarNode _ _⟩

theorem shaped_reads {indent : Nat} {p q : Place} {es : List Element} (h : Reads indent p es q) :
    EntriesOnly es ∧ ∀ c, Element.node c ∈ es → Shaped c := by
  have hentry : ∀ {lead key gap : List Char} {value : Node} {es : List Element},
      Shaped (entryNode lead key gap value) → (EntriesOnly es ∧ ∀ c, Element.node c ∈ es → Shaped c) →
        EntriesOnly (.node (entryNode lead key gap value) :: es) ∧
          ∀ c, Element.node c ∈ Element.node (entryNode lead key gap value) :: es → Shaped c := by
    rintro lead key gap value es hshaped ⟨honly, h⟩
    refine ⟨List.forall_mem_cons.2 ⟨⟨_, rfl, rfl⟩, honly⟩, fun c hc => ?_⟩
    rcases List.mem_cons.1 hc with hc | hc
    · cases hc
      exact hshaped
    · exact h c hc
  induction h with
  | done => exact ⟨nofun, nofun⟩
  | scalar _ _ _ _ hvalue _ ih =>
      obtain ⟨hkind, hshaped⟩ := shaped_scalarAt hvalue
      exact hentry (.entry rfl rfl rfl (.inl hkind) hshaped) ih
  | nested _ _ _ _ _ hskip hahead _ _ hchildren _ ihchildren ih =>
      have hne := hchildren.ne_nil hskip hahead rfl
      exact hentry (.entry rfl rfl rfl (.inr rfl)
        (shaped_mappingNode hne ihchildren.1 ihchildren.2)) ih

theorem shaped_of_parseDocument {source : String} {document : Node}
    (h : parseDocument source = .ok document) : DocumentShaped document := by
  obtain ⟨start, p, mapping, q, last, hmarker, hmapping, hlast, rfl⟩ := parseDocument_eq_ok.1 h
  obtain ⟨lead, next, _, _, rfl⟩ := documentEnd_eq_ok.1 hlast
  refine ⟨rfl, start, mapping, _, rfl, rfl, ?_, ?_⟩
  · obtain ⟨lead, next, _, ⟨_, rfl, _⟩ | ⟨_, rfl, _⟩⟩ := marker_eq_ok.1 hmarker <;> simp
  · obtain ⟨lead, next, hskip, ⟨_, rfl, _⟩ | ⟨hahead, entries, rfl, hentries⟩⟩ :=
      rootMapping_eq_ok.1 hmapping
    · exact .inl rfl
    · obtain ⟨honly, hshaped⟩ := shaped_reads hentries
      exact .inr ⟨_, rfl, rfl,
        shaped_mappingNode (hentries.ne_nil hskip hahead rfl) honly hshaped⟩

end Codemod.Yaml
