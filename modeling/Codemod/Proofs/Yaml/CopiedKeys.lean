import Codemod.Proofs.Yaml.Finding
import Codemod.Proofs.Yaml.PathTexts
import Codemod.Proofs.Yaml.Pieces
import Codemod.Proofs.Yaml.Written

/-!
Keys copied from a document into a path. Keys and paths are read by two readers of quotes, which
differ in two points: a quote written twice between single quotes ends a segment of a path, and a
zero behind a backslash is an ordinary character there. The main statement says that these are the
only keys that a path does not take over as they are.
-/

namespace Codemod.Yaml

open Codemod.Text Codemod.Tree

/-! ### What stands between quotes -/

/-- The text may stand between single quotes: a single quote in it is written twice. -/
inductive SingleQuoted : List Char → Prop where
  | nil : SingleQuoted []
  | plain {c : Char} {cs : List Char} (hquote : c ≠ '\'') (h : SingleQuoted cs) :
      SingleQuoted (c :: cs)
  | doubled {cs : List Char} (h : SingleQuoted cs) : SingleQuoted ('\'' :: '\'' :: cs)

theorem Enclosed.singleQuoted {inner : List Char} (h : Enclosed '\'' inner) : SingleQuoted inner := by
  induction h with
  | nil => exact .nil
  | plain _ hquote _ _ ih => exact .plain hquote ih
  | escape hdouble => cases hdouble
  | doubled _ _ ih => exact .doubled ih

theorem Enclosed.doubleQuoted {inner : List Char} (h : Enclosed '"' inner) : DoubleQuoted inner := by
  induction h with
  | nil => exact .nil
  | plain _ hquote hescape _ ih => exact .plain hquote (hescape rfl) ih
  | escape _ c _ ih => exact .escape c ih
  | doubled hsingle => cases hsingle

theorem undouble_of_not_mem {inner : List Char} (h : '\'' ∉ inner) : undouble inner = inner := by
  induction inner with
  | nil => rfl
  | cons c inner ih =>
      rw [List.mem_cons, not_or] at h
      rw [undouble.eq_2, ih h.2]
      rintro rest rfl
      exact absurd rfl h.1

theorem SingleQuoted.exists_doubled {inner : List Char} (h : SingleQuoted inner) (hmem : '\'' ∈ inner) :
    ∃ front behind, inner = front ++ '\'' :: '\'' :: behind ∧ '\'' ∉ front := by
  induction h with
  | nil => cases hmem
  | @plain c cs hquote _ ih =>
      have hrest := (List.mem_cons.1 hmem).resolve_left (Ne.symm hquote)
      obtain ⟨front, behind, rfl, hfront⟩ := ih hrest
      exact ⟨c :: front, behind, rfl, by simpa using ⟨Ne.symm hquote, hfront⟩⟩
  | @doubled cs => exact ⟨[], cs, rfl, List.not_mem_nil⟩

theorem unescape_eq_decode (cs : List Char) : unescape cs = decode escaped cs := by
  fun_induction unescape cs with
  | case1 c rest ih => rw [decode, ih]
  | case2 c rest hother ih => rw [decode.eq_2 _ _ _ hother, ih]
  | case3 => rfl

/-- The characters behind the backslashes of a text. -/
def escapes : List Char → List Char
  | '\\' :: c :: rest => c :: escapes rest
  | _ :: rest => escapes rest
  | [] => []

theorem decode_eq_iff {escaped escaped' : Char → Char} {cs : List Char} :
    decode escaped cs = decode escaped' cs ↔ ∀ c ∈ escapes cs, escaped c = escaped' c := by
  fun_induction escapes cs with
  | case1 c rest ih => simp [decode, ih]
  | case2 c rest hother ih => simp [decode.eq_2 _ _ _ hother, ih]
  | case3 => simp [decode]

theorem escaped_eq_iff (c : Char) : KeyPath.escaped c = escaped c ↔ c ≠ '0' := by
  by_cases hzero : c = '0'
  · subst hzero
    decide
  · refine iff_of_true ?_ hzero
    unfold KeyPath.escaped escaped
    split <;> simp_all

theorem decode_eq_unescape_iff {inner : List Char} :
    decode KeyPath.escaped inner = unescape inner ↔ '0' ∉ escapes inner := by
  rw [unescape_eq_decode, decode_eq_iff]
  constructor
  · exact fun h hzero => (escaped_eq_iff '0').1 (h '0' hzero) rfl
  · exact fun h c hc => (escaped_eq_iff c).2 fun hzero => h (hzero ▸ hc)

/-! ### Keys as texts of paths -/

/-- The character is neither a quote nor a blank. -/
def IsPlain (c : Char) : Prop :=
  c ≠ '"' ∧ c ≠ '\'' ∧ isBlank c = false

instance (c : Char) : Decidable (IsPlain c) :=
  inferInstanceAs (Decidable (_ ∧ _))

/-- The key is quoted, or it has no blank and no quote in it and nothing is missing between, before
or behind its dots. -/
def Copyable (raw : String) : Prop :=
  isQuoted raw = true ∨ [] ∉ splitOn '.' raw.toList ∧ ∀ c ∈ raw.toList, IsPlain c

instance (raw : String) : Decidable (Copyable raw) :=
  decidable_of_iff (isQuoted raw = true ∨ [] ∉ splitOn '.' raw.toList ∧
    (raw.toList.all fun c => decide (IsPlain c)) = true) (by simp [Copyable])

/-- A path reads the key in another way than a document does: a quote is written twice between
single quotes, or a zero stands behind a backslash between double quotes. -/
def Misread (raw : List Char) : Prop :=
  (∃ inner, raw = '\'' :: (inner ++ ['\'']) ∧ '\'' ∈ inner) ∨
    ∃ inner, raw = '"' :: (inner ++ ['"']) ∧ '0' ∈ escapes inner

theorem misread_single {inner : List Char} : Misread ('\'' :: (inner ++ ['\''])) ↔ '\'' ∈ inner := by
  simp [Misread]

theorem misread_double {inner : List Char} : Misread ('"' :: (inner ++ ['"'])) ↔ '0' ∈ escapes inner := by
  simp [Misread]

/-- The ways in which a key is written that may be copied. -/
inductive RawKey : List Char → Prop where
  | plain {raw : List Char} (hparts : [] ∉ splitOn '.' raw) (h : ∀ c ∈ raw, IsPlain c) : RawKey raw
  | single {inner : List Char} (h : SingleQuoted inner) : RawKey ('\'' :: (inner ++ ['\'']))
  | double {inner : List Char} (h : DoubleQuoted inner) : RawKey ('"' :: (inner ++ ['"']))

/-- The segments of a key, each as its characters. -/
def keyParts (raw : List Char) : List (List Char) :=
  (keySegments (String.ofList raw)).map String.toList

theorem keyParts_toList (raw : String) : keyParts raw.toList = (keySegments raw).map String.toList := by
  rw [keyParts, String.ofList_toList]

theorem keyParts_single (inner : List Char) :
    keyParts ('\'' :: (inner ++ ['\''])) = [undouble inner] := by
  have hquoted : isQuoted (String.ofList ('\'' :: (inner ++ ['\'']))) = true :=
    isQuoted_quotes (.inr rfl) inner
  rw [keyParts, keySegments, if_pos hquoted, unquote, String.toList_ofList, between_quotes]
  simp

theorem keyParts_double (inner : List Char) :
    keyParts ('"' :: (inner ++ ['"'])) = [unescape inner] := by
  have hquoted : isQuoted (String.ofList ('"' :: (inner ++ ['"']))) = true :=
    isQuoted_quotes (.inl rfl) inner
  have hother : between? '\'' ('"' :: (inner ++ ['"'])) = none := by
    simp [between?]
  rw [keyParts, keySegments, if_pos hquoted, unquote, String.toList_ofList, between_quotes, hother]
  simp

theorem isQuoted_of_forall_plain {raw : List Char} (h : ∀ c ∈ raw, IsPlain c) :
    isQuoted (String.ofList raw) = false := by
  cases raw with
  | nil => rfl
  | cons c raw =>
      obtain ⟨hdouble, hsingle, -⟩ := h c List.mem_cons_self
      exact isQuoted_of_plain String.toList_ofList hdouble hsingle

theorem keyParts_plain {raw : List Char} (h : ∀ c ∈ raw, IsPlain c) : keyParts raw = splitOn '.' raw := by
  rw [keyParts, keySegments, isQuoted_of_forall_plain h, if_neg Bool.false_ne_true,
    String.toList_ofList]
  simp

theorem not_misread_plain {raw : List Char} (h : ∀ c ∈ raw, IsPlain c) : ¬ Misread raw := by
  rintro (⟨inner, rfl, -⟩ | ⟨inner, rfl, -⟩)
  · exact (h '\'' List.mem_cons_self).2.1 rfl
  · exact (h '"' List.mem_cons_self).1 rfl

theorem RawKey.text {raw : List Char} (h : RawKey raw) (hread : ¬ Misread raw) :
    PathText raw (keyParts raw) := by
  cases h with
  | plain hparts h =>
      refine ⟨splitOn '.' raw, splitOn_ne_nil _ _, ?_, (join_splitOn _ _).symm⟩
      rw [keyParts_plain h, List.forall₂_same]
      intro part hpart
      refine .bare (fun hnil => hparts (hnil ▸ hpart)) fun c hc => ?_
      have hmem : c ∈ raw := by
        rw [← join_splitOn '.' raw]
        exact mem_join hpart hc
      have hdot : c ≠ '.' := fun hdot => not_mem_of_splitOn hpart (hdot ▸ hc)
      exact ⟨hdot, h c hmem⟩
  | single h =>
      have hnone := mt misread_single.2 hread
      rw [keyParts_single, undouble_of_not_mem hnone]
      exact pathText_singleton (.single hnone)
  | double h =>
      rw [keyParts_double, ← decode_eq_unescape_iff.2 (mt misread_double.2 hread)]
      exact pathText_singleton (.double h)

theorem segments_doubled {inner : List Char} (h : SingleQuoted inner) (hmem : '\'' ∈ inner)
    (first : Bool) (rest : List Char) :
    KeyPath.segments first none false [] ('\'' :: (inner ++ ['\'']) ++ rest) = .error .quoteInside := by
  obtain ⟨front, behind, rfl, hfront⟩ := h.exists_doubled hmem
  have htext : '\'' :: (front ++ '\'' :: '\'' :: behind ++ ['\'']) ++ rest =
      '\'' :: (front ++ '\'' :: '\'' :: (behind ++ '\'' :: rest)) := by
    simp
  rw [htext, KeyPath.segments_open _ _ (.inr rfl), KeyPath.segments_singleQuoted _ _ _ _ hfront,
    KeyPath.segments_reopen _ _ _ (.inr rfl)]

theorem RawKey.read {raw : List Char} (h : RawKey raw) :
    (∀ first rest, KeyPath.segments first none false [] (raw ++ rest) = .error .quoteInside) ∨
      ∃ parts, PathText raw parts ∧ parts.length = (keyParts raw).length ∧
        (parts = keyParts raw → ¬ Misread raw) := by
  by_cases hread : Misread raw
  · cases h with
    | plain _ h => exact absurd hread (not_misread_plain h)
    | single h => exact .inl (segments_doubled h (misread_single.1 hread))
    | @double inner h =>
        rw [keyParts_double]
        refine .inr ⟨_, pathText_singleton (.double h), rfl, fun hsame => ?_⟩
        exact absurd (misread_double.1 hread) (decode_eq_unescape_iff.1 (List.cons.inj hsame).1)
  · exact .inr ⟨_, h.text hread, rfl, fun _ => hread⟩

theorem not_misread_of_segments {raws : List (List Char)} (hkeys : ∀ raw ∈ raws, RawKey raw)
    (first : Bool)
    (h : KeyPath.segments first none false [] (join '.' raws) = .ok (raws.flatMap keyParts)) :
    ∀ raw ∈ raws, ¬ Misread raw := by
  induction raws generalizing first with
  | nil => nofun
  | cons raw raws ih =>
      obtain ⟨hkey, hkeys⟩ := List.forall_mem_cons.1 hkeys
      have hfront : ∃ rest, join '.' (raw :: raws) = raw ++ rest := by
        cases raws with
        | nil => exact ⟨[], (List.append_nil raw).symm⟩
        | cons next raws => exact ⟨_, join.eq_3 _ _ _ (List.cons_ne_nil _ _)⟩
      rcases hkey.read with hfails | ⟨parts, htext, hlength, hread⟩
      · obtain ⟨rest, hrest⟩ := hfront
        rw [hrest, hfails] at h
        cases h
      rw [List.flatMap_cons] at h
      cases raws with
      | nil =>
          rw [join, KeyPath.segments_of_text htext, List.flatMap_nil, List.append_nil] at h
          exact List.forall_mem_singleton.2 (hread (Except.ok.inj h))
      | cons next raws =>
          rw [join.eq_3 _ _ _ (List.cons_ne_nil _ _), KeyPath.segments_front htext] at h
          cases hothers : KeyPath.segments false none false [] (join '.' (next :: raws)) with
          | error fault =>
              rw [hothers] at h
              cases h
          | ok others =>
              rw [hothers] at h
              obtain ⟨hsame, hrest⟩ := List.append_inj (Except.ok.inj h) hlength
              refine List.forall_mem_cons.2 ⟨hread hsame, ih hkeys false ?_⟩
              rw [hothers, hrest]

theorem segments_of_not_misread {raws : List (List Char)} (hsome : raws ≠ [])
    (hkeys : ∀ raw ∈ raws, RawKey raw) (hread : ∀ raw ∈ raws, ¬ Misread raw) (first : Bool) :
    KeyPath.segments first none false [] (join '.' raws) = .ok (raws.flatMap keyParts) := by
  induction raws generalizing first with
  | nil => contradiction
  | cons raw raws ih =>
      obtain ⟨hkey, hkeys⟩ := List.forall_mem_cons.1 hkeys
      obtain ⟨hown, hread⟩ := List.forall_mem_cons.1 hread
      have htext := hkey.text hown
      cases raws with
      | nil => rw [join, KeyPath.segments_of_text htext, List.flatMap_singleton]
      | cons next raws =>
          rw [join.eq_3 _ _ _ (List.cons_ne_nil _ _), KeyPath.segments_front htext,
            ih (List.cons_ne_nil _ _) hkeys hread, List.flatMap_cons]
          rfl

theorem parse_keys_iff {raws : List String} (hsome : raws ≠ []) (hkeys : ∀ raw ∈ raws, RawKey raw.toList) :
    (∃ path, KeyPath.parse (String.intercalate "." raws) = .ok path ∧
      path.parts = raws.flatMap keySegments) ↔ ∀ raw ∈ raws, ¬ Misread raw.toList := by
  have htext : (String.intercalate "." raws).toList = join '.' (raws.map String.toList) := by
    rw [String.toList_intercalate]
    exact intercalate_eq_join '.' _
  have hparts : (raws.flatMap keySegments).map String.toList = (raws.map String.toList).flatMap keyParts := by
    simp only [List.map_flatMap, List.flatMap_map, keyParts_toList]
  have hkeys' := List.forall_mem_map.2 hkeys
  have hread : (∀ raw ∈ raws.map String.toList, ¬ Misread raw) ↔ ∀ raw ∈ raws, ¬ Misread raw.toList :=
    List.forall_mem_map
  rw [← hread]
  constructor
  · rintro ⟨path, hparse, hpath⟩
    rw [KeyPath.parse_eq_ok, hpath, hparts, htext] at hparse
    exact not_misread_of_segments hkeys' true hparse
  · intro hnone
    have hsegments := segments_of_not_misread (by simpa using hsome) hkeys' hnone true
    have hpath : raws.flatMap keySegments ≠ [] := by
      obtain ⟨raw, raws, rfl⟩ := List.exists_cons_of_ne_nil hsome
      simp [keySegments_ne_nil]
    refine ⟨⟨_, hpath⟩, KeyPath.parse_eq_ok.2 ?_, rfl⟩
    rw [htext, hparts]
    exact hsegments

/-! ### Keys of documents -/

theorem rawKey_of_key {p q : Place} {raw : List Char} (h : key p = .ok (raw, q))
    (hcopy : Copyable (String.ofList raw)) : RawKey raw := by
  have hne := (key_moves h).1
  cases lineText_key h with
  | quoted hquote henclosed =>
      rcases hquote with rfl | rfl
      · exact .double henclosed.doubleQuoted
      · exact .single henclosed.singleQuoted
  | plain _ hquote =>
      obtain ⟨c, rest, rfl, hdouble, hsingle⟩ := exists_of_not_startsQuote hne hquote
      have hplain : isQuoted (String.ofList (c :: rest)) = false :=
        isQuoted_of_plain String.toList_ofList hdouble hsingle
      rw [Copyable, hplain, String.toList_ofList] at hcopy
      obtain ⟨hparts, hchars⟩ := hcopy.resolve_left Bool.false_ne_true
      exact .plain hparts hchars

/-- A key of the node is written in one of the ways in which keys are, if it may be copied. -/
def KeyWritten (n : Node) : Prop :=
  ∀ raw, keyText n = some raw → Copyable raw → RawKey raw.toList

theorem keyWritten_of_parseDocument {source : String} {document : Node}
    (h : parseDocument source = .ok document) : document.Everywhere KeyWritten := by
  have hother : ∀ n : Node, n.kind ≠ .yaml .entry → KeyWritten n := fun n hkind => by
    rw [KeyWritten, keyText, entryKey?, if_neg hkind]
    simp
  refine everywhere_of_parseDocument (fun n hkind _ => hother n hkind)
    (fun hscalar => hother _ (by simp [(shaped_scalarAt hscalar).1])) (fun value _ hkey => ?_) h
  obtain ⟨_, r, left, hread, _⟩ := hkey
  rw [KeyWritten, keyText_entryNode]
  rintro _ ⟨⟩ hcopy
  rw [String.toList_ofList]
  exact rawKey_of_key hread hcopy

theorem mem_entryPaths_of_chain {front around : List Node} {n e : Node}
    (h : around ++ [e] ∈ entryChains front n) :
    (keyPath (around ++ [e]), e) ∈ entryPaths (keyPath front) n := by
  induction n using Node.induction_on generalizing front with
  | step n ih =>
      have hlist : ∀ {front : List Node}, around ++ [e] ∈ entryChainsList front n.children →
          (keyPath (around ++ [e]), e) ∈ entryPathsList (keyPath front) n.children := by
        intro front h
        obtain ⟨c, hc, h⟩ := mem_entryChainsList.1 h
        rw [entryPathsList_eq, List.mem_flatMap]
        exact ⟨c, mem_childNodes.2 hc, ih c hc h⟩
      rw [entryChains_eq] at h
      rw [entryPaths_eq]
      split_ifs at h ⊢
      · rw [← keyPath_snoc]
        rcases List.mem_cons.1 h with hself | h
        · obtain ⟨rfl, hlast⟩ := List.append_inj' hself rfl
          cases hlast
          exact List.mem_cons_self
        · exact List.mem_cons_of_mem _ (hlist h)
      · exact hlist h

/-- Keys copied from a document. The key of an entry that is quoted, or that has no blank, no quote
and no part missing at its dots, is read as the path of its segments, unless it has a quote written
twice between single quotes or a zero behind a backslash between double quotes. The keys of a whole
chain of such entries, with dots between them, address the entry at its end, again but for those. -/
theorem copied_keys {source : String} {document : Node} (hparse : parseDocument source = .ok document)
    {around : List Node} {n : Node} (hchain : around ++ [n] ∈ entryChains [] document) :
    (∀ raw, keyText n = some raw → Copyable raw →
      ((∃ path, KeyPath.parse raw = .ok path ∧ path.parts = keySegments raw) ↔
        ¬ Misread raw.toList)) ∧
    ((∀ raw ∈ (around ++ [n]).filterMap keyText, Copyable raw) →
      ((∃ path, KeyPath.parse (String.intercalate "." ((around ++ [n]).filterMap keyText)) = .ok path ∧
          path.parts = keyPath (around ++ [n]) ∧ n ∈ findEntries document path) ↔
        ∀ raw ∈ (around ++ [n]).filterMap keyText, ¬ Misread raw.toList)) := by
  have hshaped := shaped_of_parseDocument hparse
  have hkeys : ∀ m ∈ around ++ [n], KeyWritten m := fun m hm =>
    keyWritten_of_parseDocument hparse m
      ((mem_preorder_of_entryChains hchain m hm).resolve_left List.not_mem_nil)
  refine ⟨fun raw hraw hcopy => ?_, fun hcopy => ?_⟩
  · have hkey := hkeys n (by simp) raw hraw hcopy
    have h := parse_keys_iff (List.cons_ne_nil raw []) (List.forall_mem_singleton.2 hkey)
    rwa [String.intercalate_singleton, List.flatMap_singleton, List.forall_mem_singleton] at h
  · have hrawKeys : ∀ raw ∈ (around ++ [n]).filterMap keyText, RawKey raw.toList := by
      intro raw hraw
      obtain ⟨m, hm, hkey⟩ := List.mem_filterMap.1 hraw
      exact hkeys m hm raw hkey (hcopy raw hraw)
    have hfound : ∀ path : KeyPath, path.parts = keyPath (around ++ [n]) →
        n ∈ findEntries document path := by
      intro path hpath
      rw [findEntries_eq hshaped, hpath, spelling]
      refine List.mem_map.2 ⟨_, List.mem_filter.2 ⟨mem_entryPaths_of_chain hchain, ?_⟩, rfl⟩
      simp
    have hsome : (around ++ [n]).filterMap keyText ≠ [] := by
      intro hnil
      have hpath : (keyPath (around ++ [n]), n) ∈ entryPaths [] document :=
        mem_entryPaths_of_chain hchain
      rw [keyPath_eq_flatMap, hnil, entryPaths_inner (by simp [hshaped.kind])] at hpath
      obtain ⟨c, hc, hpath⟩ := List.mem_flatMap.1 hpath
      exact entryPaths_ne_nil (hshaped.child (mem_childNodes.1 hc)).2 _ hpath rfl
    rw [← parse_keys_iff hsome hrawKeys, ← keyPath_eq_flatMap]
    constructor
    · rintro ⟨path, hread, hpath, -⟩
      exact ⟨path, hread, hpath⟩
    · rintro ⟨path, hread, hpath⟩
      exact ⟨path, hread, hpath, hfound path hpath⟩

/-- The key in quotes below a dotted one, copied with it, addresses the entry, though it holds a dot
itself. -/
theorem copied_keys_quoted :
    ∃ document around n, parseDocument "a.b:\n  'it''s': 1\n  'c.d': 2\n" = .ok document ∧
      around ++ [n] ∈ entryChains [] document ∧ keyText n = some "'c.d'" ∧
      ∃ path, KeyPath.parse "a.b.'c.d'" = .ok path ∧ path.parts = keyPath (around ++ [n]) ∧
        n ∈ findEntries document path := by
  have hkeys : (parseDocument "a.b:\n  'it''s': 1\n  'c.d': 2\n").toOption.any (fun document =>
      (entryChains [] document).any fun chain => decide (chain.filterMap keyText = ["a.b", "'c.d'"] ∧
        chain.getLast?.bind keyText = some "'c.d'")) = true := by decide +kernel
  cases hdocument : parseDocument "a.b:\n  'it''s': 1\n  'c.d': 2\n" with
  | error e => rw [hdocument] at hkeys; cases hkeys
  | ok document =>
      rw [hdocument] at hkeys
      obtain ⟨chain, hchain, htexts⟩ := List.any_eq_true.1 hkeys
      obtain ⟨htexts, hlast⟩ := of_decide_eq_true htexts
      obtain ⟨around, n, rfl⟩ := (List.eq_nil_or_concat' chain).resolve_left (entryChains_ne_nil hchain)
      rw [List.getLast?_concat, Option.bind_some] at hlast
      obtain ⟨-, hread⟩ := copied_keys hdocument hchain
      have htext : String.intercalate "." ["a.b", "'c.d'"] = "a.b.'c.d'" := by decide +kernel
      rw [htexts, htext] at hread
      have hcopy : ∀ raw ∈ ["a.b", "'c.d'"], Copyable raw := by decide +kernel
      have hnone : ∀ raw ∈ ["a.b", "'c.d'"], ¬ Misread raw.toList := by
        have hquoted : "'c.d'".toList = '\'' :: (['c', '.', 'd'] ++ ['\'']) := by decide +kernel
        have hplain := (hcopy "a.b" List.mem_cons_self).resolve_left (by decide +kernel)
        refine List.forall_mem_cons.2 ⟨not_misread_plain hplain.2, List.forall_mem_singleton.2 ?_⟩
        rw [hquoted, misread_single]
        decide
      exact ⟨document, around, n, rfl, hchain, hlast, (hread hcopy).2 hnone⟩

/-- A quote written twice is one quote in a key, and no path. -/
example : keySegments "'it''s'" = ["it's"] ∧
    KeyPath.parse "'it''s'" = .error ⟨"'it''s'", .quoteInside⟩ := by
  decide +kernel

end Codemod.Yaml
