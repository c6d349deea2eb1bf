import Codemod.Proofs.Java.RenamedUnits
import Codemod.Proofs.Recipes.LostImports
import Codemod.Proofs.Recipes.MethodWords

/-!
The text of a unit behind the recipe that renames methods. Each import has a fate, which the calls
through static imports decide; what stands in the place of a node is told from its fate, and the
tokens of the unit are put together from these. The indentation of a doubled import is copied in
front of what is added. It is cut out of trivia that may hold comments, so the text is read back
only where the cut part is trivia by itself.
-/

namespace Codemod.Recipes.MethodName

open Codemod.Tree Codemod.Java

/-! ### Imports -/

/-- The words of an import, each with whether it is the last name among them. -/
def markMember : List Word → List (Word × Bool)
  | [] => []
  | w :: ws => (w, w.1 == .identifier && !ws.any fun v => v.1 == .identifier) :: markMember ws

theorem markMember_append {front behind : List Word} {w : Word} (hw : w.1 = .identifier)
    (hbehind : ∀ v ∈ behind, v.1 ≠ .identifier) :
    markMember (front ++ w :: behind) =
      front.map (fun v => (v, false)) ++ (w, true) :: behind.map (fun v => (v, false)) := by
  have hnone : ∀ ws : List Word, (∀ v ∈ ws, v.1 ≠ .identifier) →
      markMember ws = ws.map fun v => (v, false) := by
    intro ws hws
    induction ws with
    | nil => rfl
    | cons v ws ih =>
        rw [markMember, ih fun v hv => hws v (List.mem_cons_of_mem _ hv),
          beq_eq_false_iff_ne.2 (hws v List.mem_cons_self)]
        rfl
  induction front with
  | nil =>
      have hlast : (behind.any fun v => v.1 == .identifier) = false := by
        simpa using fun kind text hv => hbehind (kind, text) hv
      simp [markMember, hw, hnone behind hbehind, hlast]
  | cons v front ih => simp [markMember, ih, hw]

/-- The clause `w` has the tokens of the import `n`, which end in a semicolon, but for the new name
in place of the last one; and so has a copy of it behind other trivia. -/
structure Rewritten (name : String) (n w : Node) (word semicolon : Token) (us vs : List Token) :
    Prop where
  lead : w.lead = n.lead
  before : n.lexemes = word :: us
  behind : ∀ lead, ({ w with lead } : Node).lexemes = { word with lead } :: vs
  start : word.lead = n.lead
  keyword : word.text = "import"
  last : us.getLast? = some semicolon
  kind : semicolon.kind = .punct
  text : semicolon.text = ";"
  rewords : Rewords name (markMember n.words) (word :: us) (word :: vs)

theorem Rewritten.lexemes {name : String} {n w : Node} {word semicolon : Token} {us vs : List Token}
    (h : Rewritten name n w word semicolon us vs) : w.lexemes = word :: vs := by
  have hbehind := h.behind w.lead
  rw [lexemes_eq] at hbehind ⊢
  rw [hbehind, h.lead, ← h.start]

theorem rewritten_import {n : Node} {owner member name : String} (hshape : ClauseShaped n)
    (hfirst : ∀ e ∈ n.children.head?, e.lead = "") (hkind : n.kind = .java .importClause)
    (hparts : staticImportParts? n = some (owner, member)) (hmember : member ≠ "*")
    (himport : IsImport n.lexemes) :
    ∃ w word semicolon us vs, withImportMember? n name = some w ∧
      Rewritten name n w word semicolon us vs := by
  obtain ⟨words, us, qualified, semicolon, dot, t, hname, hchildren, hts, hus, hdot, ht, rfl, rfl,
    hstatic⟩ := member_of_clause hshape hkind hparts hmember
  have hwith := withImportMember_eq hname hchildren hts ht.1 name
  obtain ⟨u, us, rfl, hu⟩ := hus.head
  cases words with
  | nil =>
      -- The first word would be a name.
      have htokens : n.lexemes = { u with lead := n.lead ++ (qualified.lead ++ u.lead) } ::
          ((us ++ [dot, t]) ++ [semicolon]) := by
        rw [lexemes_clause hkind hname hchildren hts]
        simp [leadTokens]
      rw [htokens] at himport
      have hidentifier := Grammar.identifier_of_isSign himport.ends.1
      simp [isIdentifier, hu.1] at hidentifier
  | cons word words =>
      have hlead : word.lead = "" := hfirst (.token word) (by simp [hchildren])
      obtain ⟨front, hfront⟩ : ∃ front : List Token,
          front = words ++ { u with lead := qualified.lead ++ u.lead } :: (us ++ [dot]) := ⟨_, rfl⟩
      have htokens : n.lexemes = { word with lead := n.lead } :: (front ++ [t, semicolon]) := by
        rw [lexemes_clause_cons hkind hname hchildren hts hlead, hfront]
        simp
      obtain ⟨hword, hpunct, htext⟩ :
          isSign { word with lead := n.lead } "import" = true ∧ semicolon.kind = .punct ∧
            semicolon.text = ";" := by
        refine @IsImport.ends _ _ (front ++ [t]) ?_
        rw [List.append_assoc]
        exact htokens ▸ himport
      refine ⟨_, { word with lead := n.lead }, semicolon, front ++ [t, semicolon],
        front ++ [{ t with text := name }, semicolon], hwith, rfl, htokens, fun lead => ?_, rfl,
        text_of_isSign hword, by simp, hpunct, htext, ?_⟩
      · -- The copy is a clause of the same words, with another last name.
        refine (@lexemes_clause_cons { n with lead, children := _ } { qualified with children := _ } word u
          semicolon words (us ++ [dot, { t with text := name }]) hkind hname rfl rfl hlead).trans ?_
        simp [hfront]
      · have hwords : n.words = ({ word with lead := n.lead } :: front).map Token.word ++
            t.word :: [semicolon.word] := by
          rw [Node.words, htokens]
          simp
        rw [hwords, markMember_append ht.1 (by simp [Token.word, hpunct]), List.map_map]
        exact (Rewords.refl ({ word with lead := n.lead } :: front)).append
          (.rename t ht.1 (.keep semicolon .nil))

/-! ### What becomes of an import -/

/-- What becomes of an import: it stays, it has the new name, or an import of the new name is added
behind it. -/
inductive Fate where
  | stays
  | renamed
  | doubled
deriving DecidableEq, Repr

namespace Renaming

variable {r : Renaming} {seen : Seen}

/-- A call that may mean the member through an import of the owner is renamed. -/
def isMoved (r : Renaming) (unit : Node) (owner member : String) : Bool :=
  (staticCalls unit).any fun m =>
    r.applies m && m.name == member && (m.declaringType == owner || r.pattern.selectsOwner owner)

/-- A call that is not renamed means the member through a static import. -/
def isNeeded (r : Renaming) (unit : Node) (member : String) : Bool :=
  (staticCalls unit).any fun m => !r.applies m && m.name == member

/-- What becomes of an import of one static member, by the calls through static imports in the unit.
-/
def fateOf (r : Renaming) (unit : Node) (owner member : String) : Fate :=
  if r.isMoved unit owner member && r.isNeeded unit member then
    if (staticImports unit).contains (owner, r.newName) then .stays else .doubled
  else if r.isMoved unit owner member ||
      (!r.isNeeded unit member && r.selectsImport owner member) then .renamed
  else .stays

/-- What becomes of a node in a unit. -/
def fate (r : Renaming) (unit n : Node) : Fate :=
  match staticImportParts? n with
  | some (owner, member) => if member == "*" then .stays else r.fateOf unit owner member
  | none => .stays

theorem parts_of_fate {unit n : Node} (h : r.fate unit n ≠ .stays) :
    ∃ owner member, staticImportParts? n = some (owner, member) ∧ member ≠ "*" ∧
      r.fate unit n = r.fateOf unit owner member := by
  cases hparts : staticImportParts? n with
  | none => exact absurd (by rw [fate, hparts]) h
  | some parts =>
      obtain ⟨owner, member⟩ := parts
      rw [fate, hparts] at h ⊢
      simp only [beq_iff_eq] at h ⊢
      split_ifs at h ⊢ with hstar
      · exact absurd rfl h
      · exact ⟨owner, member, rfl, hstar, rfl⟩

theorem replaceChild_fate {unit n : Node} (hcollects : r.Collects (staticCalls unit) {} seen) :
    r.replaceChild seen (staticImports unit) (.node n) =
      match r.fate unit n with
      | .stays => none
      | .renamed => (withImportMember? n r.newName).map fun w => [.node w]
      | .doubled => (withImportMember? n r.newName).map fun w =>
          [.node n, .node { w with lead := "\n" ++ Text.indent n.lead }] := by
  have hneeded : ∀ member, seen.kept.contains member = r.isNeeded unit member := by
    intro member
    rw [Bool.eq_iff_iff, List.contains_iff_mem, mem_kept hcollects, isNeeded, List.any_eq_true]
    refine exists_congr fun m => and_congr_right fun _ => ?_
    rw [Bool.and_eq_true, Bool.not_eq_true', beq_iff_eq, eq_comm (a := member)]
  have hmoved : ∀ owner member, r.renamedHere seen owner member = r.isMoved unit owner member := by
    intro owner member
    rw [Bool.eq_iff_iff, renamedHere_iff hcollects, isMoved, List.any_eq_true]
    refine exists_congr fun m => and_congr_right fun _ => ?_
    simp [and_assoc]
  rw [replaceChild, fate]
  cases staticImportParts? n with
  | none => rfl
  | some parts =>
      simp only [replaceImport, hneeded, hmoved, fateOf]
      split_ifs <;> rfl

/-! ### Parts of a unit -/

/-- The words of a child of a unit, each with whether it is the new name behind the recipe. -/
def marks (r : Renaming) (unit : Node) : Element → List (Word × Bool)
  | .token t => [(t.word, false)]
  | .node n =>
      match r.fate unit n with
      | .stays => markNames r.pattern n
      | .renamed => markMember n.words
      | .doubled => n.words.map fun w => (w, false)

/-- The words of the import that is added behind a child of a unit. -/
def added (r : Renaming) (unit : Node) : Element → List Word
  | .token _ => []
  | .node n =>
      if r.fate unit n = .doubled then (markMember n.words).map (respellWord r.newName) else []

theorem anchored_of_token {n : Node} {t : Token} (h : Element.token t ∈ n.children) :
    n.Anchored := by
  intro hnil
  have hmem := mem_lexemesIn n.kind.layout h (List.mem_singleton_self t)
  rw [hnil] at hmem
  cases hmem

theorem anchored_clause {n : Node} (hshape : ClauseShaped n) : n.Everywhere Node.Anchored := by
  obtain ⟨words, name, semicolon, _, hqualified, hchildren⟩ := hshape
  obtain ⟨t, ts, hts⟩ : ∃ t ts, name.children = (t :: ts).map .token := by
    obtain ⟨ts, hdotted, h | ⟨dot, star, _, _, h⟩⟩ := hqualified
    all_goals obtain ⟨t, ts, rfl, _⟩ := hdotted.head
    · exact ⟨t, ts, h⟩
    · exact ⟨t, ts ++ [dot, star], h⟩
  refine everywhere_iff.2 ⟨@anchored_of_token n semicolon (by simp [hchildren]), fun c hc => ?_⟩
  obtain rfl : c = name := by simpa [hchildren] using hc
  refine everywhere_iff.2 ⟨@anchored_of_token c t (by simp [hts]), fun d hd => ?_⟩
  simp [hts] at hd

/-- What is known of a node in an attributed unit. -/
structure Part (symbols : SymbolTable) (n : Node) : Prop where
  spelled : n.Everywhere (Spelled symbols)
  names : n.Everywhere NamesIdentifier
  regular : n.Everywhere Regular
  anchored : n.Everywhere Node.Anchored
  first : ∀ e ∈ n.children.head?, e.lead = ""
  clause : n.kind = .java .importClause → ClauseShaped n ∧ IsImport n.lexemes

variable {symbols : SymbolTable} {unit n : Node}

theorem anchored_respell (hn : Part symbols n) : (r.respell n).Everywhere Node.Anchored := by
  intro m' hm' hnil
  rw [preorder_respell] at hm'
  obtain ⟨m, hm, rfl⟩ := List.mem_map.1 hm'
  have hrewords := rewords_respell (r := r) (fun c hc => hn.spelled c (mem_preorder_trans hc hm))
    fun c hc => hn.names c (mem_preorder_trans hc hm)
  rw [lexemes_eq (r.respell m), hnil] at hrewords
  rw [(markers_respell m).2]
  refine hn.anchored m hm ((@leadTokens_eq_nil m.lead _).1 ?_)
  rw [← lexemes_eq]
  exact List.forall₂_nil_right_iff.1 hrewords.renamed

/-- The children that stand in the place of a node in a unit behind the recipe. -/
structure Replaced (r : Renaming) (unit n : Node) (es : List Element) : Prop where
  marks : (r.marks unit (.node n)).map Prod.fst = n.words
  words : (Node.lexemesIn .sequence es).map Token.word =
    (r.marks unit (.node n)).map (respellWord r.newName) ++ r.added unit (.node n)
  anchored : ∀ c, Element.node c ∈ es → c.Everywhere Node.Anchored
  renamed : r.fate unit n ≠ .doubled →
    List.Forall₂ (Renamed r.newName) n.lexemes (Node.lexemesIn .sequence es)
  doubled : r.fate unit n = .doubled → ∃ w word semicolon us vs,
    Rewritten r.newName n w word semicolon us vs ∧ Node.lexemesIn .sequence es =
      word :: us ++ { word with lead := "\n" ++ Text.indent n.lead } :: vs

theorem lexemesIn_singleton (n : Node) : Node.lexemesIn .sequence [.node n] = n.lexemes := by
  simp [Node.lexemesIn, Element.lexemes, Layout.delimiterTokens]

theorem lexemesIn_pair (n m : Node) :
    Node.lexemesIn .sequence [.node n, .node m] = n.lexemes ++ m.lexemes := by
  simp [Node.lexemesIn, Element.lexemes, Layout.delimiterTokens]

theorem replaced_stays (hn : Part symbols n) (hfate : r.fate unit n = .stays) :
    r.Replaced unit n [.node (r.respell n)] := by
  have hrewords := rewords_respell (r := r) hn.spelled hn.names
  refine ⟨?_, ?_, ?_, fun _ => ?_, fun h => ?_⟩
  · rw [marks, hfate]
    exact hrewords.before
  · rw [lexemesIn_singleton, hrewords.behind, marks, added, hfate]
    simp
  · intro c hc
    cases List.mem_singleton.1 hc
    exact anchored_respell hn
  · rw [lexemesIn_singleton]
    exact hrewords.renamed
  · cases hfate.symm.trans h

theorem rewritten_of_fate (hdot : '.' ∉ r.newName.toList) (hn : Part symbols n)
    (h : r.fate unit n ≠ .stays) :
    r.respell n = n ∧ ∃ w word semicolon us vs, withImportMember? n r.newName = some w ∧
      ClauseShaped w ∧ Rewritten r.newName n w word semicolon us vs := by
  obtain ⟨owner, member, hparts, hstar, _⟩ := parts_of_fate h
  have hkind := kind_of_parts hparts
  obtain ⟨hshape, himport⟩ := hn.clause hkind
  obtain ⟨w, word, semicolon, us, vs, hw, hrewritten⟩ :=
    @rewritten_import n owner member r.newName hshape hn.first hkind hparts hstar himport
  obtain ⟨w', hw', _, hshape', _⟩ := withImportMember_of_parts hshape hkind hparts hstar hdot
  obtain rfl : w' = w := Option.some.inj (hw'.symm.trans hw)
  refine ⟨respell_eq_self ?_, w', word, semicolon, us, vs, hw, hshape', hrewritten⟩
  exact everywhere_clause hshape hkind (fun m hm => by rw [hm]; rfl) fun m hm => by rw [hm]; rfl

section

variable {w : Node} {word semicolon : Token} {us vs : List Token}

theorem replaced_renamed (hfate : r.fate unit n = .renamed) (hshape : ClauseShaped w)
    (hw : Rewritten r.newName n w word semicolon us vs) : r.Replaced unit n [.node w] := by
  refine ⟨?_, ?_, ?_, fun _ => ?_, fun h => ?_⟩
  · rw [marks, hfate, Node.words, hw.before]
    have hbefore := hw.rewords.before
    rwa [Node.words, hw.before] at hbefore
  · rw [lexemesIn_singleton, hw.lexemes, hw.rewords.behind, marks, added, hfate]
    simp
  · intro c hc
    cases List.mem_singleton.1 hc
    exact anchored_clause hshape
  · rw [lexemesIn_singleton, hw.lexemes, hw.before]
    exact hw.rewords.renamed
  · cases hfate.symm.trans h

theorem replaced_doubled (hn : Part symbols n) (hfate : r.fate unit n = .doubled)
    (hshape : ClauseShaped w) (hw : Rewritten r.newName n w word semicolon us vs) :
    r.Replaced unit n [.node n, .node { w with lead := "\n" ++ Text.indent n.lead }] := by
  have hmarks : r.marks unit (.node n) = n.words.map fun w => (w, false) := by rw [marks, hfate]
  refine ⟨?_, ?_, ?_, fun h => absurd hfate h, fun _ => ?_⟩
  · rw [hmarks, List.map_map]
    exact List.map_id _
  · have hkept : (n.words.map fun w => (w, false)).map (respellWord r.newName) = n.words := by
      rw [List.map_map]
      exact List.map_id _
    rw [lexemesIn_pair, hw.behind, List.map_append, hmarks, hkept, added, if_pos hfate,
      ← hw.rewords.behind]
    rfl
  · intro c hc
    rcases List.mem_cons.1 hc with hc | hc
    · cases hc
      exact hn.anchored
    · cases List.mem_singleton.1 hc
      exact anchored_clause (n := { w with lead := _ }) hshape
  · refine ⟨w, word, semicolon, us, vs, hw, ?_⟩
    rw [lexemesIn_pair, hw.behind, hw.before]

end

theorem replaced_node (hdot : '.' ∉ r.newName.toList) (hn : Part symbols n)
    (hcollects : r.Collects (staticCalls unit) {} seen) :
    r.Replaced unit n ((r.replaceChild seen (staticImports unit) (.node (r.respell n))).getD
      [.node (r.respell n)]) := by
  have hparts : staticImportParts? (r.respell n) = staticImportParts? n :=
    (respelling_respell r).staticImportParts hn.regular
  have hsame : r.fate unit (r.respell n) = r.fate unit n := by rw [fate, fate, hparts]
  rw [replaceChild_fate hcollects, hsame]
  by_cases hstays : r.fate unit n = .stays
  · rw [hstays]
    exact replaced_stays hn hstays
  · obtain ⟨hself, w, word, semicolon, us, vs, hw, hshape, hrewritten⟩ :=
      rewritten_of_fate hdot hn hstays
    rw [hself, hw]
    cases hfate : r.fate unit n with
    | stays => exact absurd hfate hstays
    | renamed => exact replaced_renamed hfate hshape hrewritten
    | doubled => exact replaced_doubled hn hfate hshape hrewritten

/-! ### Units -/

theorem lexemesIn_flatten (pieces : List (List Element)) :
    Node.lexemesIn .sequence pieces.flatten = (pieces.map (Node.lexemesIn .sequence)).flatten := by
  induction pieces with
  | nil => rfl
  | cons es pieces ih =>
      rw [List.flatten_cons, lexemesIn_sequence_append, ih, List.map_cons, List.flatten_cons]

theorem replaced_unit {items : List Node} {last : Token} (hdot : '.' ∉ r.newName.toList)
    (hunit : Attributed unit) (hregular : unit.Everywhere Regular)
    (hchildren : unit.children = items.map .node ++ [.token last])
    (hparts : ∀ n ∈ items, Part symbols n) :
    ∃ pieces, List.Forall₂ (r.Replaced unit) items pieces ∧
      ((r.pass unit).getD unit).kind = .java .compilationUnit ∧
        ((r.pass unit).getD unit).lead = unit.lead ∧
          ((r.pass unit).getD unit).children = pieces.flatten ++ [.token last] := by
  obtain ⟨seen, hcollects, hrespelled, hpass⟩ := pass_eq (r := r) hunit
  rw [← staticCalls_unit hunit] at hcollects
  have hbelow : (r.respell unit).children = unit.children.map (Element.mapNode r.respell) := by
    rw [respell_eq]
    exact congrArg Node.children (respellHere_other (by rw [hunit.kind]; rfl))
  obtain ⟨piece, hpiece⟩ : ∃ piece : Node → List Element, piece = fun n =>
      (r.replaceChild seen (staticImports unit) (.node (r.respell n))).getD [.node (r.respell n)] :=
    ⟨_, rfl⟩
  have hedited : r.edited (r.respell unit) seen =
      (items.map piece).flatten ++ [.token last] := by
    have hexisting : (r.respell unit).childNodes.filterMap staticImportParts? = staticImports unit :=
      staticImports_respell hregular
    rw [edited, hexisting, hbelow, hchildren, hpiece]
    simp [List.flatMap_def, Element.mapNode, replaceChild, Function.comp_def]
  refine ⟨items.map piece, ?_, ?_, ?_, ?_⟩
  · refine List.forall₂_map_right_iff.2 (List.forall₂_same.2 fun n hn => ?_)
    rw [hpiece]
    exact replaced_node hdot (hparts n hn) hcollects
  · rw [hpass]
    exact hrespelled.kind
  · rw [hpass]
    exact (markers_respell unit).2
  · rw [hpass]
    exact hedited

theorem words_replaced {items : List Node} {pieces : List (List Element)}
    (h : List.Forall₂ (r.Replaced unit) items pieces) :
    ((items.map Element.node).flatMap (r.marks unit)).map Prod.fst =
        (items.map Node.lexemes).flatten.map Token.word ∧
      (pieces.map (Node.lexemesIn .sequence)).flatten.map Token.word =
        (items.map Element.node).flatMap fun e =>
          (r.marks unit e).map (respellWord r.newName) ++ r.added unit e := by
  induction h with
  | nil => exact ⟨rfl, rfl⟩
  | cons hn _ ih =>
      obtain ⟨hbefore, hbehind⟩ := ih
      simp only [List.map_cons, List.flatMap_cons, List.flatten_cons, List.map_append]
      rw [hbefore, hbehind, hn.marks, hn.words]
      exact ⟨rfl, rfl⟩

theorem anchored_replaced {items : List Node} {pieces : List (List Element)} {c : Node}
    (h : List.Forall₂ (r.Replaced unit) items pieces) (hc : Element.node c ∈ pieces.flatten) :
    c.Everywhere Node.Anchored := by
  induction h with
  | nil => cases hc
  | cons hn _ ih => exact (List.mem_append.1 hc).elim (hn.anchored c) ih

theorem Replaced.rewritesPart {es : List Element} (h : r.Replaced unit n es)
    (hskips : r.fate unit n = .doubled →
      Scan.Skips (Text.indent n.lead).toList "import".toList) :
    RewritesPart r.newName n (Node.lexemesIn .sequence es) := by
  by_cases hfate : r.fate unit n = .doubled
  · obtain ⟨w, word, semicolon, us, vs, hrewritten, hlexemes⟩ := h.doubled hfate
    have hmoves : r.fate unit n ≠ .stays := by
      rw [hfate]
      decide
    obtain ⟨_, _, hparts, _⟩ := parts_of_fate hmoves
    refine .inr ⟨kind_of_parts hparts, ?_⟩
    have hlead : Scan.Skips ("\n" ++ Text.indent n.lead).toList word.text.toList := by
      rw [hrewritten.keyword, String.toList_append]
      exact (Scan.skips_blank_cons (by decide)).2 (hskips hfate)
    rw [hlexemes, hrewritten.before]
    exact .doubled hrewritten.rewords.renamed hrewritten.last hrewritten.kind hrewritten.text hlead
  · exact .inl (h.renamed hfate)

theorem skips_of_scans {items : List Node} {pieces : List (List Element)} {last : Token}
    (h : List.Forall₂ (r.Replaced unit) items pieces) {lead : String}
    (hscans : Scan.Scans (leadTokens lead
      ((pieces.map (Node.lexemesIn .sequence)).flatten ++ [last])))
    (hn : n ∈ items) (hfate : r.fate unit n = .doubled) :
    Scan.Skips (Text.indent n.lead).toList "import".toList := by
  induction h generalizing lead with
  | nil => cases hn
  | @cons m es items pieces hm _ ih =>
      rw [List.map_cons, List.flatten_cons, List.append_assoc] at hscans
      generalize hrest : (pieces.map (Node.lexemesIn .sequence)).flatten ++ [last] = rest at ih hscans
      have hne : rest ≠ [] := by simp [← hrest]
      rcases List.mem_cons.1 hn with rfl | hn
      · obtain ⟨w, word, semicolon, us, vs, hrewritten, hlexemes⟩ := hm.doubled hfate
        rw [hlexemes, List.append_assoc, List.cons_append, List.cons_append] at hscans
        have hcopy : Scan.Scans
            ({ word with lead := "\n" ++ Text.indent n.lead } :: (vs ++ rest)) :=
          @Scan.Scans.behind ({ word with lead := lead ++ word.lead } :: us) _ hscans (by simp)
        obtain ⟨hsplits, _⟩ := hcopy.splits (by simp [hne])
        have hstops : Scan.Skips [] "import".toList :=
          Scan.skips_nil_cons.2 ⟨by decide, fun h => absurd h (by decide)⟩
        have hskips := hsplits.skips.before (by simp [hrewritten.keyword]) hstops
        rw [String.toList_append] at hskips
        exact (Scan.skips_blank_cons (by decide)).1 hskips
      · by_cases hnil : Node.lexemesIn .sequence es = []
        · rw [hnil, List.nil_append] at hscans
          exact ih hscans hn
        · rw [leadTokens_append lead hnil] at hscans
          have hscans' := Scan.Scans.behind hscans hne
          rw [← leadTokens_empty rest] at hscans'
          exact ih hscans' hn

theorem lexemes_replaced {root : Node} {items : List Node} {pieces : List (List Element)} {last : Token}
    (h : List.Forall₂ (r.Replaced unit) items pieces) (hkind : root.kind = .java .compilationUnit)
    (hchildren : root.children = pieces.flatten ++ [.token last]) :
    root.lexemes =
        leadTokens root.lead ((pieces.map (Node.lexemesIn .sequence)).flatten ++ [last]) ∧
      root.print = printTokens root.lexemes := by
  constructor
  · rw [lexemes_eq, hkind, hchildren]
    show leadTokens root.lead (Node.lexemesIn .sequence _) = _
    rw [lexemesIn_sequence_append, lexemesIn_flatten]
    rfl
  · refine (printTokens_lexemes (everywhere_iff.2 ⟨?_, fun c hc => ?_⟩)).symm
    · exact @anchored_of_token root last (by simp [hchildren])
    · rw [hchildren] at hc
      exact anchored_replaced h (by simpa using hc)

theorem parses_replaced {source : String} {parsed : Node} {items : List Node}
    {pieces : List (List Element)} {last : Token} {ts : List Token}
    (hparse : parseUnit source = .ok parsed) (hname : IsIdentifier r.newName)
    (hchildren : parsed.children = (items.map Node.untyped).map .node ++ [.token last])
    (h : List.Forall₂ (r.Replaced unit) items pieces)
    (hts : ts = leadTokens parsed.lead ((pieces.map (Node.lexemesIn .sequence)).flatten ++ [last])) :
    (∃ unit', parseUnit (printTokens ts) = .ok unit' ∧ unit'.lexemes = ts) ↔
      ∀ n ∈ items, r.fate unit n = .doubled →
        Scan.Skips (Text.indent n.lead).toList "import".toList := by
  subst hts
  constructor
  · rintro ⟨unit', hunit', hsame⟩ n hn hfate
    obtain ⟨_, _, tokens, htokens, hread⟩ := unit_of_parseUnit hunit'
    have hscans := tokenize_printTokens.1 ⟨tokens, htokens, (hsame.symm.trans hread).symm⟩
    exact skips_of_scans h hscans hn hfate
  · intro hskips
    refine parseUnit_rewritten hparse hname hchildren ?_
    rw [List.forall₂_map_left_iff, List.forall₂_map_right_iff]
    refine ((List.forall₂_and_left _ _).2 ⟨hskips, h⟩).imp fun n es hn => ?_
    rw [RewritesPart, lexemes_untyped, kind_untyped]
    exact hn.2.rewritesPart hn.1

/-! ### Attributed units -/

theorem items_of_untyped {es : List Element} {items : List Node}
    (h : es.map Element.untyped = items.map .node) :
    ∃ items' : List Node, es = items'.map .node ∧ items = items'.map Node.untyped := by
  induction es generalizing items with
  | nil =>
      obtain rfl := List.map_eq_nil_iff.1 h.symm
      exact ⟨[], rfl, rfl⟩
  | cons e es ih =>
      obtain ⟨n, items, rfl, he, hes⟩ := List.map_eq_cons_iff.1 h.symm
      obtain ⟨items', rfl, rfl⟩ := ih hes.symm
      cases e with
      | token t => cases he
      | node m =>
          cases he
          exact ⟨m :: items', rfl, rfl⟩

theorem parts_attributeUnit {units : List Node} {source : String}
    (hunits : ∀ u ∈ units, ∃ s, parseUnit s = .ok u) (h : parseUnit source = .ok unit) :
    ∃ (items : List Node) (last : Token),
      (attributeUnit (.ofUnits units) unit).children = items.map .node ++ [.token last] ∧
        unit.children = (items.map Node.untyped).map .node ++ [.token last] ∧
          ∀ n ∈ items, Part (.ofUnits units) n := by
  obtain ⟨hunit, hanchored, _⟩ := unit_of_parseUnit h
  obtain ⟨tokens, htokens, hparse⟩ := bind_eq_ok.1 h
  obtain ⟨items, last, hchildren, _, hitems⟩ := hunit.children
  have huntyped := untyped_attributeUnit h (.ofUnits units)
  have hattributed := (attributed_of_parseUnit h (.ofUnits units)).1
  have hspelled := spelled_attributeUnit h (.ofUnits units)
  have hnames := names_attributeUnit hunits h
  have hregular := regular_attributeUnit h (.ofUnits units)
  generalize attributeUnit (.ofUnits units) unit = root at *
  have hbelow : root.children.map Element.untyped = items.map .node ++ [.token last] := by
    rw [← untypedList_eq_map, ← children_untyped, huntyped, hchildren]
  obtain ⟨es, fs, hsplit, hes, hfs⟩ := List.map_eq_append_iff.1 hbelow
  obtain ⟨items, rfl, rfl⟩ := items_of_untyped hes
  obtain rfl : fs = [.token last] := by
    have htokens : Node.untypedList fs = [last].map .token := by
      rw [untypedList_eq_map, hfs]
      rfl
    exact untypedList_eq_tokens htokens
  refine ⟨items, last, hsplit, hchildren, fun n hn => ?_⟩
  have hchild : Element.node n ∈ root.children := by simp [hsplit, hn]
  have hshaped := (hitems n.untyped (List.mem_map_of_mem hn)).1
  refine ⟨(everywhere_iff.1 hspelled).2 n hchild, (everywhere_iff.1 hnames).2 n hchild,
    (everywhere_iff.1 hregular).2 n hchild, fun m hm => ?_, fun e he => ?_, fun hkind => ⟨?_, ?_⟩⟩
  · have hmem := mem_preorder_untyped (mem_preorder.2 (.inr ⟨n, hchild, hm⟩))
    rw [huntyped] at hmem
    exact anchored_untyped.1 (hanchored _ hmem)
  · have hhead := (everywhere_iff.1 hshaped).1.first e.untyped
    rw [children_untyped, untypedList_eq_map, List.head?_map, he] at hhead
    have hlead := hhead rfl
    cases e with
    | token t => exact hlead
    | node c => cases c; exact hlead
  · exact hattributed.clauses n hchild hkind
  · rw [← lexemes_untyped]
    refine isImport_of_parseTokens (genuine_tokenize htokens).1 hparse ?_
      ((kind_untyped n).trans hkind)
    rw [hchildren]
    exact List.mem_append_left _ (List.mem_map_of_mem (List.mem_map_of_mem hn))

end Renaming

theorem dot_of_isIdentifier {name : String} (h : IsIdentifier name) : '.' ∉ name.toList := by
  obtain ⟨tokens, htokens, hname⟩ := h
  rw [Tokens.toList, List.map_append] at hname
  have hsplit : tokens.ahead.map Lexed.token ++ [tokens.last.token] =
      [(⟨.identifier, "", name⟩ : Token)] ++ [⟨.eof, "", ""⟩] := hname
  obtain ⟨hahead, _⟩ := List.append_inj' hsplit rfl
  obtain ⟨lexed, _, hlexed, hsame, _⟩ := List.map_eq_cons_iff.1 hahead
  have hgenuine := (genuine_tokenize htokens).1 lexed (by simp [hlexed])
  rw [hsame] at hgenuine
  exact hgenuine.noDot rfl

/-- The words of a source are the marked ones. Behind the recipe the marked words are the new name,
which are the names of the selected declarations and calls and the last names of the renamed
imports, and each doubled import has the words of another one behind it. The text is read back as
these tokens exactly if the indentation of each doubled import is trivia. -/
theorem renamed_text {pattern newName : Option String} {r : Renaming}
    (hr : renaming? pattern newName = some r) (hname : IsIdentifier r.newName)
    {inputs : List (String × String)} {file : Source.SourceFile} (hfile : file ∈ filesOf inputs) :
    let root' := ((changeMethodName pattern newName).apply ⟨file.root, []⟩).root
    (∃ tokens, tokenize file.text = .ok tokens ∧
      tokens.toList.map (fun t => t.token.word) =
        (file.root.children.flatMap (r.marks file.root)).map Prod.fst) ∧
    (root'.words = file.root.children.flatMap fun e =>
      (r.marks file.root e).map (respellWord r.newName) ++ r.added file.root e) ∧
    ((∃ unit, parseUnit root'.print = .ok unit ∧ unit.lexemes = root'.lexemes) ↔
      ∀ n ∈ file.root.childNodes, r.fate file.root n = .doubled →
        Scan.Skips (Text.indent n.lead).toList "import".toList) := by
  intro root'
  obtain ⟨i, _, unit, hparse, rfl⟩ := mem_files.1 hfile
  have hunits : ∀ u ∈ unitsOf inputs, ∃ s, parseUnit s = .ok u := by
    intro u hu
    obtain ⟨j, _, hj⟩ := mem_unitsOf.1 hu
    exact ⟨j.2, hj⟩
  obtain ⟨items, last, hchildren, hbefore, hparts⟩ := Renaming.parts_attributeUnit hunits hparse
  have hattributed := (attributed_of_parseUnit hparse (.ofUnits (unitsOf inputs))).1
  have hregular := regular_attributeUnit hparse (.ofUnits (unitsOf inputs))
  have huntyped := untyped_attributeUnit hparse (.ofUnits (unitsOf inputs))
  obtain ⟨pieces, hpieces, hkind', hlead', hchildren'⟩ :=
    Renaming.replaced_unit (dot_of_isIdentifier hname) hattributed hregular hchildren hparts
  rw [← root_apply hr] at hkind' hlead' hchildren'
  change root'.kind = _ at hkind'
  change root'.lead = _ at hlead'
  change root'.children = _ at hchildren'
  simp only
  generalize attributeUnit (.ofUnits (unitsOf inputs)) unit = root at *
  obtain ⟨hmarks, hwords⟩ := Renaming.words_replaced hpieces
  have hlead : unit.lead = root.lead := by
    rw [← huntyped]
    cases root
    rfl
  have hlexemes : unit.lexemes = leadTokens root.lead
      ((items.map Node.lexemes).flatten ++ [last]) := by
    rw [← huntyped, lexemes_untyped]
    exact lexemes_unit hattributed.kind hchildren
  obtain ⟨hlexemes', hprint⟩ := Renaming.lexemes_replaced hpieces hkind' hchildren'
  rw [hlead'] at hlexemes'
  refine ⟨?_, ?_, ?_⟩
  · obtain ⟨_, _, tokens, htokens, hsame⟩ := unit_of_parseUnit hparse
    refine ⟨tokens, htokens, ?_⟩
    have hread : tokens.toList.map (fun t => t.token.word) = unit.lexemes.map Token.word := by
      rw [hsame, List.map_map]
      rfl
    rw [hread, hlexemes, words_leadTokens, hchildren, List.flatMap_append, List.map_append,
      List.map_append, hmarks]
    rfl
  · rw [Node.words, hlexemes', words_leadTokens, hchildren, List.flatMap_append, List.map_append,
      hwords]
    rfl
  · have hitems : root.childNodes = items := by
      rw [Node.childNodes, hchildren, List.filterMap_append, List.filterMap_map]
      simp [Function.comp_def, Element.node?]
    rw [hprint, hitems]
    exact Renaming.parses_replaced hparse hname hbefore hpieces (hlead ▸ hlexemes')

/-- The call that is not renamed keeps the old import, and the copy of the import takes along the
comment in front of it. -/
theorem renamed_text_doubled :
    let inputs :=
      [ ("B.java", "package p;\nclass B \x7b\n  static void f() \x7b\x7d\n  static void f(int i) \x7b\x7d\n\x7d\n"),
        ("A.java", "package p;\n  /* both */ import static p.B.f;\nclass A \x7b void t() \x7b f(1); f(); \x7d \x7d\n") ]
    let recipe := changeMethodName (some "p.B f(int)") (some "h")
    ∃ file ∈ filesOf inputs,
      let root' := (recipe.apply ⟨file.root, []⟩).root
      root'.words.map Prod.snd =
        [ "package", "p", ";", "import", "static", "p", ".", "B", ".", "f", ";", "import", "static",
          "p", ".", "B", ".", "h", ";", "class", "A", "\x7b", "void", "t", "(", ")", "\x7b", "h", "(",
          "1", ")", ";", "f", "(", ")", ";", "\x7d", "\x7d", "" ] ∧
        ∃ unit, parseUnit root'.print = .ok unit ∧ unit.lexemes = root'.lexemes := by
  intro inputs recipe
  have hfacts : (renaming? (some "p.B f(int)") (some "h")).any (fun r =>
      (filesOf inputs)[1]?.any fun file =>
        r.newName == "h" &&
          ((file.root.children.flatMap fun e =>
            (r.marks file.root e).map (respellWord r.newName) ++ r.added file.root e).map Prod.snd ==
              [ "package", "p", ";", "import", "static", "p", ".", "B", ".", "f", ";", "import",
                "static", "p", ".", "B", ".", "h", ";", "class", "A", "\x7b", "void", "t", "(", ")",
                "\x7b", "h", "(", "1", ")", ";", "f", "(", ")", ";", "\x7d", "\x7d", "" ]) &&
            file.root.childNodes.all fun n =>
              r.fate file.root n != .doubled || Text.indent n.lead == "  /* both */ ") = true := by
    decide +kernel
  obtain ⟨r, hr, hfacts⟩ := (Option.any_eq_true _ _).1 hfacts
  obtain ⟨file, hfile, hfacts⟩ := (Option.any_eq_true _ _).1 hfacts
  simp only [Bool.and_eq_true, beq_iff_eq, List.all_eq_true, Bool.or_eq_true, bne_iff_ne] at hfacts
  obtain ⟨⟨hnewName, hwords⟩, hindent⟩ := hfacts
  have hname : IsIdentifier r.newName := by
    rw [hnewName]
    exact ⟨_, rfl, by decide +kernel⟩
  have hmem := List.mem_of_getElem? hfile
  obtain ⟨-, hbehind, hparses⟩ := renamed_text hr hname hmem
  refine ⟨file, hmem, ?_, hparses.2 fun n hn hfate => ?_⟩
  · rw [hbehind, hwords]
  · rw [(hindent n hn).resolve_left fun h => h hfate]
    have htrivia : Scan.trivia .outside 0 "  /* both */ import".toList =
        .ok ("  /* both */ ".toList, "import".toList) := by
      decide +kernel
    exact Scan.skips_of_trivia htrivia

/-- The comment in front of the import spans lines, and only its end is copied. -/
example :
    let inputs :=
      [ ("B.java", "package p;\nclass B \x7b\n  static void f() \x7b\x7d\n  static void f(int i) \x7b\x7d\n\x7d\n"),
        ("A.java", "package p;\n/* a\n b */ import static p.B.f;\nclass A \x7b void t() \x7b f(1); f(); \x7d \x7d\n") ]
    let recipe := changeMethodName (some "p.B f(int)") (some "h")
    (filesOf inputs).map (fun file =>
      (parseUnit (recipe.apply ⟨file.root, []⟩).root.print).toOption.isSome) = [true, false] := by
  decide +kernel

end Codemod.Recipes.MethodName
