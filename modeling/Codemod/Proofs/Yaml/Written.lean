import Codemod.Proofs.Yaml.LineTexts
import Codemod.Proofs.Yaml.Shape
import Codemod.Yaml.Entry

/-!
What the entries of parsed documents are written with: trivia in front, a key that is quoted or
does not begin with a quote, and a colon.
-/

namespace Codemod.Yaml

open Codemod.Tree

/-- The text of a key is quoted, or it does not begin with a quote. -/
def KeyText (raw : String) : Prop :=
  isQuoted raw = false → ∃ c rest, raw.toList = c :: rest ∧ c ≠ '"' ∧ c ≠ '\''

/-- The tokens of an entry, and the trivia in front of it. -/
structure WrittenEntry (n : Node) : Prop where
  lead : IsTrivia n.lead.toList
  key : ∀ {key}, entryKey? n = some key → KeyText key.text
  colon : ∃ t ∈ n.tokens, t.text = ":"

/-- The node is written as an entry, if it is one. -/
def Written (n : Node) : Prop :=
  n.kind = .yaml .entry → WrittenEntry n

theorem written_other {n : Node} (hkind : n.kind ≠ .yaml .entry) : Written n :=
  fun hentry => absurd hentry hkind

/-- A node below a document has its shape, and its entries are written as such. -/
structure WellWritten (n : Node) : Prop where
  shaped : Shaped n
  written : n.Everywhere Written

theorem WellWritten.child {n c : Node} (h : WellWritten n) (hc : Element.node c ∈ n.children) :
    WellWritten c :=
  ⟨h.shaped.child hc, (everywhere_iff.1 h.written).2 c hc⟩

/-! ### Keys -/

theorem between_quotes (quote : Char) (inner : List Char) :
    between? quote (quote :: (inner ++ [quote])) = some inner := by
  simp [between?]

theorem isQuoted_quotes {quote : Char} (hquote : quote = '"' ∨ quote = '\'') (inner : List Char) :
    isQuoted (String.ofList (quote :: (inner ++ [quote]))) = true := by
  rcases hquote with rfl | rfl <;> simp [isQuoted, between_quotes]

/-- What does not begin with a quote is not quoted. -/
theorem isQuoted_of_plain {raw : String} {c : Char} {rest : List Char}
    (h : raw.toList = c :: rest) (hdouble : c ≠ '"') (hsingle : c ≠ '\'') :
    isQuoted raw = false := by
  simp [isQuoted, between?, h, hdouble, hsingle]

theorem keyText_key {p q : Place} {raw : List Char} (h : key p = .ok (raw, q)) :
    KeyText (String.ofList raw) := by
  intro hplain
  have hne := (key_moves h).1
  cases lineText_key h with
  | @quoted quote inner hquote =>
      rw [isQuoted_quotes hquote] at hplain
      cases hplain
  | plain _ hquote =>
      rw [String.toList_ofList]
      exact exists_of_not_startsQuote hne hquote

/-! ### Parsed documents -/

theorem written_entryNode {p next q : Place} {lead raw gap : List Char} (value : Node)
    (hskip : p.skip = .ok (lead, next)) (hkey : KeyAt next raw gap q) :
    Written (entryNode lead raw gap value) := by
  obtain ⟨_, r, left, hread, _⟩ := hkey
  refine fun _ => ⟨?_, fun {key} hfound => ?_, ?_⟩
  · simpa [entryNode] using isTrivia_skip hskip
  · obtain rfl : ⟨.text, "", String.ofList raw⟩ = key := Option.some.inj hfound
    exact keyText_key hread
  · exact ⟨⟨.punct, String.ofList gap, ":"⟩, by simp [entryNode, Node.tokens, Element.token?], rfl⟩

section
variable {Q : Node → Prop}
  (hother : ∀ n, n.kind ≠ .yaml .entry → n.kind ≠ .yaml .scalar → Q n)
  (hscalar : ∀ {indent : Nat} {p q : Place} {value : Node}, ScalarAt indent p value q → Q value)
  (hentry : ∀ {p next q : Place} {lead raw gap : List Char} (value : Node),
    p.skip = .ok (lead, next) → KeyAt next raw gap q → Q (entryNode lead raw gap value))
include hscalar

theorem everywhere_scalarAt {indent : Nat} {p q : Place} {value : Node}
    (h : ScalarAt indent p value q) : value.Everywhere Q := by
  refine everywhere_iff.2 ⟨hscalar h, fun c hc => ?_⟩
  cases h <;> simp [scalarNode] at hc

include hother hentry

theorem everywhere_reads {indent : Nat} {p q : Place} {es : List Element} (h : Reads indent p es q) :
    ∀ c, Element.node c ∈ es → c.Everywhere Q := by
  have hnode : ∀ {lead raw gap : List Char} {value : Node},
      Q (entryNode lead raw gap value) → value.Everywhere Q →
        (entryNode lead raw gap value).Everywhere Q := by
    intro lead raw gap value hown hvalue
    refine everywhere_iff.2 ⟨hown, fun c hc => ?_⟩
    obtain rfl : c = value := by simpa [entryNode] using hc
    exact hvalue
  induction h with
  | done => simp
  | scalar hskip _ _ hkey hvalue _ ih =>
      intro c hc
      rcases List.mem_cons.1 hc with hc | hc
      · cases hc
        exact hnode (hentry _ hskip hkey) (everywhere_scalarAt hscalar hvalue)
      · exact ih c hc
  | nested hskip _ _ hkey _ _ _ _ _ _ _ ihchildren ih =>
      intro c hc
      rcases List.mem_cons.1 hc with hc | hc
      · cases hc
        refine hnode (hentry _ hskip hkey) (everywhere_iff.2 ⟨hother _ ?_ ?_, ihchildren⟩) <;>
          simp [mappingNode]
      · exact ih c hc

/-- What holds of each scalar and, whatever its value, of each entry that is read holds of all nodes
of a parsed document. -/
theorem everywhere_of_parseDocument {source : String} {document : Node}
    (h : parseDocument source = .ok document) : document.Everywhere Q := by
  obtain ⟨start, p, mapping, q, last, hmarker, hmapping, hlast, rfl⟩ := parseDocument_eq_ok.1 h
  obtain ⟨lead, next, _, _, rfl⟩ := documentEnd_eq_ok.1 hlast
  refine everywhere_iff.2 ⟨hother _ (by simp) (by simp), fun c hc => ?_⟩
  have hmem : Element.node c ∈ mapping := by
    obtain ⟨lead, next, _, ⟨_, rfl, _⟩ | ⟨_, rfl, _⟩⟩ := marker_eq_ok.1 hmarker <;> simpa using hc
  obtain ⟨lead, next, _, ⟨_, rfl, _⟩ | ⟨_, entries, rfl, hentries⟩⟩ :=
    rootMapping_eq_ok.1 hmapping
  · cases hmem
  · cases List.mem_singleton.1 hmem
    exact everywhere_iff.2 ⟨hother _ (by simp [mappingNode]) (by simp [mappingNode]),
      everywhere_reads hother hscalar hentry hentries⟩

end

theorem written_of_parseDocument {source : String} {document : Node}
    (h : parseDocument source = .ok document) : document.Everywhere Written :=
  everywhere_of_parseDocument (fun _ hentry _ => written_other hentry)
    (fun hscalar => written_other (by simp [(shaped_scalarAt hscalar).1])) written_entryNode h

end Codemod.Yaml
