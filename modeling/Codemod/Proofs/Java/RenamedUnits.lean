import Codemod.Proofs.Java.Clauses
import Codemod.Proofs.Java.RenamedTokens

/-!
Units of renamed texts. A unit is its package, its imports and its types one behind another, each of
them parsed without regard to the words of identifiers, so a text with some identifiers renamed is a
unit again; and so it is where some of the imports are written twice.
-/

namespace Codemod.Java

open Codemod.Tree Codemod.Java.Parser

/-! ### Runs over units -/

theorem Grammar.kind_topLevel {g : Grammar} {t u : Tokens} {n : Node}
    (h : Grammar.topLevel g t = .ok (n, u)) : n.kind ≠ .java .importClause := by
  obtain ⟨_, h | h⟩ := cond_run h
  · simp [build_kind h]
  · obtain ⟨mods, _, _, h⟩ := bind_run.1 h
    simp [Grammar.classDeclaration_kind h]

theorem lexemesIn_nodes (items : List Node) :
    Node.lexemesIn .sequence (items.map .node) = items.flatMap Node.lexemes := by
  induction items with
  | nil => rfl
  | cons n items ih =>
      rw [List.map_cons, List.flatMap_cons, ← ih]
      simp [Node.lexemesIn, Element.lexemes, Layout.delimiterTokens]

theorem Grammar.packages_of_run {t v : Tokens} {es : List Element} (ht : t.Genuine)
    (h : optional (sees "package") (one packageClause) t = .ok (es, v)) :
    ∃ packages : List Node, es = packages.map .node ∧ t.Passes (packages.flatMap Node.lexemes) v ∧
      (packages = [] ∧ isSign (t.nth 0) "package" = false ∨
        ∃ p, packages = [p] ∧ p.kind ≠ .java .importClause ∧ PackageForm p.lexemes) := by
  obtain ⟨present, u, hpresent, h⟩ := bind_run.1 h
  cases peeks_sees hpresent
  cases present with
  | false =>
      cases h
      rw [sees_run] at hpresent
      exact ⟨[], rfl, .refl _, .inl ⟨rfl, congrArg Prod.fst (Except.ok.inj hpresent)⟩⟩
  | true =>
      obtain ⟨p, hp, rfl⟩ := one_run.1 h
      have hgrown := grows_packageClause ht hp
      obtain ⟨taken, htaken, hform⟩ := (recognizes_packageClause _ _).1 ⟨p, hp⟩
      rw [htaken.unique hgrown.passes] at hform
      refine ⟨[p], rfl, ?_, .inr ⟨p, rfl, by simp [build_kind hp], hform⟩⟩
      rw [List.flatMap_singleton]
      exact hgrown.passes

/-- The types of a unit are parsed from here on. -/
def TypesRun (depth : Nat) (t : Tokens) : Prop :=
  ∃ es u, manyWhile Grammar.more (one (Grammar.topLevel (Grammar.nested depth))) t = .ok (es, u)

/-- The parts of a unit, with the states in front of the imports and of the types. -/
structure UnitRun (tokens : Tokens) (root : Node) (packages imports types : List Node)
    (v w : Tokens) : Prop where
  root : root = Node.hoisted (.java .compilationUnit)
    ((packages ++ imports ++ types).map .node ++ [.token tokens.last.token])
  anchored : ∀ n ∈ packages ++ imports ++ types, n.Anchored
  toImports : tokens.Passes (packages.flatMap Node.lexemes) v
  toTypes : v.Passes (imports.flatMap Node.lexemes) w
  toEnd : w.ahead.map Lexed.token = types.flatMap Node.lexemes
  packages : packages = [] ∧ isSign (tokens.nth 0) "package" = false ∨
    ∃ p, packages = [p] ∧ p.kind ≠ .java .importClause ∧ Grammar.PackageForm p.lexemes
  imports : ∀ n ∈ imports, n.kind = .java .importClause ∧ Grammar.ImportForm n.lexemes
  types : ∀ n ∈ types, n.kind ≠ .java .importClause
  noImport : isSign (w.nth 0) "import" = false
  run : TypesRun (tokens.ahead.length + 1) w

theorem unit_run {tokens : Tokens} {root : Node} (htokens : tokens.Genuine)
    (h : parseTokens tokens = .ok root) :
    ∃ packages imports types v w, UnitRun tokens root packages imports types v w := by
  obtain ⟨⟨unit, u⟩, hunit, h⟩ := bind_eq_ok.1 h
  cases h
  obtain ⟨es, hes, rfl⟩ := build_run.1 hunit
  obtain ⟨declarations, x, _, hdeclarations, hend, rfl⟩ :=
    (parts_append_run [_, _, _] [_]).1 hes
  obtain ⟨_, y, _, hatEnd, hnil, rfl⟩ := parts_cons_run.1 hend
  cases hatEnd
  obtain ⟨rfl, rfl⟩ := parts_nil_run.1 hnil
  obtain ⟨hgrown, hahead, _⟩ :=
    declarations_run (Grammar.growsAll_nested _) htokens hdeclarations
  obtain ⟨package, v, _, hpackage, hrest, rfl⟩ := parts_cons_run.1 hdeclarations
  obtain ⟨imports, w, _, himports, hbehind, rfl⟩ := parts_cons_run.1 hrest
  obtain ⟨types, x, _, htypes, hnil, rfl⟩ := parts_cons_run.1 hbehind
  obtain ⟨rfl, rfl⟩ := parts_nil_run.1 hnil
  obtain ⟨packages, rfl, hv, hpackages⟩ := Grammar.packages_of_run htokens hpackage
  obtain ⟨imports, rfl, hw, himports, hnone⟩ :=
    Grammar.importClauses_of_run (hv.genuine htokens) himports
  have hpasses := (yields_manyWhile Grammar.peeks_more
    (yields_one (Grammar.grows_topLevel (Grammar.growsAll_nested _)))
      (hw.genuine (hv.genuine htokens)) htypes).passes
  have hrun : TypesRun (tokens.ahead.length + 1) w := ⟨types, u, htypes⟩
  obtain ⟨types, rfl, hitems⟩ := manyWhile_items Grammar.peeks_more htypes
  rw [lexemesIn_nodes] at hpasses
  refine ⟨packages, imports, types, v, w, ?_, fun n hn => hgrown.anchored n ?_, hv, hw, ?_,
    hpackages, himports, ?_, hnone, hrun⟩
  · simp [hgrown.passes.1]
  · simpa using hn
  · obtain ⟨_, front, hfront, hmap⟩ := hpasses
    rw [hfront, hahead, List.append_nil, hmap]
  · intro n hn
    obtain ⟨_, _, hn⟩ := hitems n hn
    exact Grammar.kind_topLevel hn

theorem UnitRun.mem_imports {tokens v w : Tokens} {root n : Node} {packages imports types : List Node}
    (h : UnitRun tokens root packages imports types v w) (hn : n ∈ packages ++ imports ++ types)
    (hkind : n.kind = .java .importClause) : n ∈ imports := by
  rcases List.mem_append.1 hn with hn | hn
  · refine (List.mem_append.1 hn).resolve_left fun hn => ?_
    rcases h.packages with ⟨rfl, _⟩ | ⟨p, rfl, hp, _⟩
    · cases hn
    · cases List.mem_singleton.1 hn
      exact hp hkind
  · exact absurd hkind (h.types n hn)

/-- The tokens are a keyword, others and a semicolon behind them. -/
def IsImport (ts : List Token) : Prop :=
  ∃ word us semicolon, ts = word :: (us ++ [semicolon]) ∧ isSign word "import" = true ∧
    semicolon.kind = .punct ∧ semicolon.text = ";"

theorem IsImport.ends {first last : Token} {ts : List Token} (h : IsImport (first :: (ts ++ [last]))) :
    isSign first "import" = true ∧ last.kind = .punct ∧ last.text = ";" := by
  obtain ⟨word, us, semicolon, hends, hword, hpunct, htext⟩ := h
  obtain ⟨rfl, hothers⟩ := List.cons.inj hends
  obtain ⟨-, hlast⟩ := List.append_inj' hothers rfl
  obtain rfl := List.singleton_inj.1 hlast
  exact ⟨hword, hpunct, htext⟩

theorem isImport_of_parseTokens {tokens : Tokens} {root n : Node} (htokens : tokens.Genuine)
    (h : parseTokens tokens = .ok root) (hn : Element.node n ∈ root.children)
    (hkind : n.kind = .java .importClause) : IsImport n.lexemes := by
  obtain ⟨packages, imports, types, v, w, hrun⟩ := unit_run htokens h
  rw [hrun.root] at hn
  obtain ⟨d, hd, hnd⟩ := mem_children_hoisted hn
  have hdkind : d.kind = .java .importClause := by
    rcases hnd with rfl | rfl <;> exact hkind
  have hmem : d ∈ imports := hrun.mem_imports (by simpa using hd) hdkind
  obtain ⟨word, us, semicolon, hlexemes, hword, hsemicolon⟩ := (hrun.imports d hmem).2.ends
  have hgenuine : Genuine semicolon := by
    refine hrun.toTypes.mem_genuine (hrun.toImports.genuine htokens) ?_
    exact List.mem_flatMap.2 ⟨d, hmem, by simp [hlexemes]⟩
  have hpunct := eq_punct hgenuine hsemicolon (by decide)
  have hrest : ∃ word' us', n.lexemes = word' :: (us' ++ [semicolon]) ∧
      isSign word' "import" = true := by
    rcases hnd with rfl | rfl
    · exact ⟨word, us, hlexemes, hword⟩
    · have hlead : Tree.leadTokens d.lead ({ d with lead := "" } : Node).lexemes = d.lexemes :=
        lexemes_withLead_empty (.node d)
      cases hts : ({ d with lead := "" } : Node).lexemes with
      | nil =>
          rw [hts, hlexemes] at hlead
          cases hlead
      | cons t ts =>
          rw [hts, hlexemes, Tree.leadTokens, List.cons.injEq] at hlead
          obtain ⟨rfl, rfl⟩ := hlead
          exact ⟨t, us, rfl, hword⟩
  obtain ⟨word', us', hn, htext⟩ := hrest
  exact ⟨word', us', semicolon, hn, htext, congrArg Token.kind hpunct, text_of_isSign hsemicolon⟩

theorem parses_of_runs {tokens v w : Tokens} {package : List Token} {clauses : List (List Token)}
    (hpackage : package = [] ∧ isSign (tokens.nth 0) "package" = false ∨
      Grammar.PackageForm package)
    (hv : tokens.Passes package v) (hclauses : ∀ c ∈ clauses, Grammar.ImportForm c)
    (hw : v.Passes clauses.flatten w) (hnone : isSign (w.nth 0) "import" = false)
    (hrun : TypesRun (tokens.ahead.length + 1) w) : ∃ root, parseTokens tokens = .ok root := by
  have hfirst : ∃ es, optional (sees "package") (one Grammar.packageClause) tokens = .ok (es, v) := by
    rcases hpackage with ⟨rfl, hnone⟩ | hform
    · obtain rfl := Tokens.Passes.nil_iff.1 hv
      refine ⟨[], bind_run.2 ⟨false, v, ?_, rfl⟩⟩
      rw [sees_run, hnone]
    · obtain ⟨p, hp⟩ := (Grammar.recognizes_packageClause tokens v).2 ⟨package, hv, hform⟩
      obtain ⟨t, us, rfl, ht, _⟩ := hform
      refine ⟨[.node p], bind_run.2 ⟨true, tokens, ?_, one_run.2 ⟨p, hp, rfl⟩⟩⟩
      rw [sees_run, hv.nth_zero, ht]
  obtain ⟨first, hfirst⟩ := hfirst
  obtain ⟨imports, himports⟩ := Grammar.importClauses_run hclauses hw hnone
  obtain ⟨types, x, htypes⟩ := hrun
  have hend : parts [Grammar.atEnd] x = .ok ([.token x.last.token], x) :=
    parts_cons_run.2 ⟨[.token x.last.token], x, [], rfl, parts_nil_run.2 ⟨rfl, rfl⟩, rfl⟩
  have hunit := build_run (k := .compilationUnit) (t := tokens) (u := x) |>.2
    ⟨_, parts_cons_run.2 ⟨first, v, _, hfirst, parts_cons_run.2 ⟨imports, w, _, himports,
      parts_cons_run.2 ⟨types, x, _, htypes, hend, rfl⟩, rfl⟩, rfl⟩, rfl⟩
  exact ⟨_, bind_eq_ok.2 ⟨_, hunit, rfl⟩⟩

/-! ### Renamed tokens -/

/-- The same word for all identifiers. -/
def Relabelling.wordless : Relabelling where
  lead := id
  word _ := ""
  isEmpty_lead _ := rfl

variable {name : String}

theorem Renamed.wordless {t t' : Token} (h : Renamed name t t') :
    Relabelling.wordless.token t' = Relabelling.wordless.token t := by
  rcases h with rfl | ⟨hkind, rfl⟩
  · rfl
  · simp [Relabelling.token, Relabelling.wordless, hkind]

theorem Renamed.lookalike {t t' : Token} (h : Renamed name t t') : Lookalike t t' := by
  rcases h with rfl | ⟨hkind, rfl⟩
  · exact ⟨rfl, fun _ => rfl⟩
  · exact ⟨rfl, fun h => absurd hkind h⟩

theorem wordless_tokens {t t' : Tokens}
    (h : List.Forall₂ (Renamed name) (t.ahead.map Lexed.token) (t'.ahead.map Lexed.token))
    (hlast : t'.last.token = t.last.token) :
    Relabelling.wordless.tokens t' = Relabelling.wordless.tokens t := by
  have hmap : ∀ {ts us : List Token}, List.Forall₂ (Renamed name) ts us →
      us.map Relabelling.wordless.token = ts.map Relabelling.wordless.token := by
    intro ts us h
    induction h with
    | nil => rfl
    | cons ht _ ih => rw [List.map_cons, List.map_cons, ht.wordless, ih]
  have hahead := congrArg (List.map fun t => Lexed.mk t 0) (hmap h)
  simp only [List.map_map] at hahead
  exact congrArg₂ Tokens.mk hahead
    (congrArg (fun t => Lexed.mk (Relabelling.wordless.token t) 0) hlast)

theorem isSign_wordless {t t' : Tokens}
    (h : Relabelling.wordless.tokens t' = Relabelling.wordless.tokens t) (text : String) :
    isSign (t'.nth 0) text = isSign (t.nth 0) text := by
  have hnth := congrArg (fun t => isSign (Tokens.nth t 0) text) h
  simp only [Relabelling.token_front] at hnth
  have hignores : ∀ t, isSign (Relabelling.wordless.token t) text = isSign t text :=
    Relabelling.wordless.ignores_isSign text
  rwa [hignores, hignores] at hnth

theorem TypesRun.renamed {t t' : Tokens} {d d' : Nat} (h : TypesRun d t)
    (hsame : Relabelling.wordless.tokens t' = Relabelling.wordless.tokens t)
    (hd : t.ahead.length ≤ d) (hd' : t'.ahead.length ≤ d') : TypesRun d' t' := by
  have hmirrors : ∀ {n d : Nat}, n ≤ d → n ≤ d' →
      Mirrors .wordless (n + 1) Relabelling.wordless.elements
        (manyWhile Grammar.more (one (Grammar.topLevel (Grammar.nested d))))
        (manyWhile Grammar.more (one (Grammar.topLevel (Grammar.nested d')))) := fun hd hd' =>
    Grammar.mirrors_more.many (Grammar.mirrors_topLevel (Grammar.mirrors_nested hd hd')).one
  have hlength : t'.ahead.length = t.ahead.length := by
    have hahead := congrArg (fun t => t.ahead.length) hsame
    simpa [Relabelling.tokens] using hahead
  obtain ⟨es, u, hrun⟩ := h
  have hlabelled := ((hmirrors hd (hlength ▸ hd') t (Nat.lt_succ_self _)).1 es u hrun).1
  rw [← hsame] at hlabelled
  cases hrun' : manyWhile Grammar.more (one (Grammar.topLevel (Grammar.nested d'))) t' with
  | ok x => exact ⟨x.1, x.2, hrun'⟩
  | error e =>
      obtain ⟨e', he'⟩ := (hmirrors hd' hd' t' (Nat.lt_succ_self _)).2 e hrun'
      cases he'.symm.trans hlabelled

/-! ### Rewritten units -/

/-- What can stand in place of a part of a unit: its tokens with some of them renamed, and where the
part is an import, two of them. -/
def RewritesPart (name : String) (n : Node) (us : List Token) : Prop :=
  List.Forall₂ (Renamed name) n.lexemes us ∨
    n.kind = .java .importClause ∧ Rewrites name n.lexemes us

theorem RewritesPart.rewrites {n : Node} {us : List Token} (h : RewritesPart name n us) :
    Rewrites name n.lexemes us :=
  h.elim .renamed And.right

theorem forall₂_append_left {α β : Type} {R : α → β → Prop} {xs ys : List α} {zs : List β}
    (h : List.Forall₂ R (xs ++ ys) zs) :
    ∃ zs₁ zs₂, zs = zs₁ ++ zs₂ ∧ List.Forall₂ R xs zs₁ ∧ List.Forall₂ R ys zs₂ := by
  induction xs generalizing zs with
  | nil => exact ⟨[], zs, rfl, .nil, h⟩
  | cons x xs ih =>
      cases h with
      | cons hx hxs =>
          obtain ⟨zs₁, zs₂, rfl, h₁, h₂⟩ := ih hxs
          exact ⟨_, zs₂, rfl, .cons hx h₁, h₂⟩

theorem renamed_leadTokens {lead : String} {ts us : List Token}
    (h : List.Forall₂ (Renamed name) ts us) :
    List.Forall₂ (Renamed name) (leadTokens lead ts) (leadTokens lead us) := by
  cases h with
  | nil => exact .nil
  | cons ht hts =>
      refine .cons ?_ hts
      rcases ht with rfl | ⟨hkind, rfl⟩
      · exact .inl rfl
      · exact .inr ⟨hkind, rfl⟩

theorem Rewrites.leadTokens {lead : String} {ts us : List Token} (h : Rewrites name ts us) :
    Rewrites name (leadTokens lead ts) (leadTokens lead us) := by
  cases h with
  | renamed h => exact .renamed (renamed_leadTokens h)
  | @doubled t t' semicolon ts us added h hlast hkind htext hlead =>
      have hrenamed : List.Forall₂ (Renamed name) ({ t with lead := lead ++ t.lead } :: ts)
          ({ t' with lead := lead ++ t'.lead } :: us) := renamed_leadTokens h
      have hdoubled := Rewrites.doubled hrenamed hlast hkind htext hlead
      exact hdoubled

theorem importForms_of_rewrites {ts us : List Token} (hform : Grammar.ImportForm ts)
    (h : Rewrites name ts us) :
    ∃ c clauses, us = (c :: clauses).flatten ∧ ∀ d ∈ c :: clauses, Grammar.ImportForm d := by
  have hlookalike : ∀ {ts us : List Token}, List.Forall₂ (Renamed name) ts us →
      List.Forall₂ Lookalike ts us := fun h => h.imp fun _ _ => Renamed.lookalike
  cases h with
  | renamed h =>
      refine ⟨us, [], (List.flatten_singleton).symm, ?_⟩
      simpa using hform.lookalike (hlookalike h)
  | @doubled t t' semicolon ts us lead h hlast hkind htext hlead =>
      refine ⟨t :: ts, [{ t' with lead } :: us], by simp, ?_⟩
      have hcopy : List.Forall₂ Lookalike (t :: ts) ({ t' with lead } :: us) := by
        cases hlookalike h with
        | cons ht hts => exact .cons ⟨ht.kind, ht.text⟩ hts
      simpa using ⟨hform, hform.lookalike hcopy⟩

theorem RewritesPart.eq_nil {n : Node} {us : List Token} (h : RewritesPart name n us)
    (hus : us = []) : n.lexemes = [] := by
  subst hus
  rcases h with h | ⟨_, h⟩
  · cases hn : n.lexemes with
    | nil => rfl
    | cons t ts =>
        rw [hn] at h
        cases h
  · generalize n.lexemes = ts at h
    cases h with
    | renamed h => cases h; rfl

theorem RewritesPart.unhoisted {n : Node} {us : List Token}
    (h : RewritesPart name { n with lead := "" } us) :
    RewritesPart name n (Tree.leadTokens n.lead us) := by
  have hlexemes : Tree.leadTokens n.lead ({ n with lead := "" } : Node).lexemes = n.lexemes :=
    lexemes_withLead_empty (.node n)
  rw [RewritesPart, ← hlexemes]
  exact h.imp renamed_leadTokens fun ⟨hkind, h⟩ => ⟨hkind, h.leadTokens⟩

theorem rewritesParts_hoisted {items parts : List Node} {last last' : Token} {root : Node}
    (hroot : root = Node.hoisted (.java .compilationUnit) (parts.map .node ++ [.token last']))
    (hanchored : ∀ n ∈ parts, n.Anchored)
    (hchildren : root.children = items.map .node ++ [.token last]) {qs : List (List Token)}
    (hqs : List.Forall₂ (RewritesPart name) items qs) :
    ∃ qs', List.Forall₂ (RewritesPart name) parts qs' ∧
      leadTokens root.lead (qs.flatten ++ [last]) = qs'.flatten ++ [last'] := by
  subst hroot
  cases parts with
  | nil =>
      cases items with
      | nil =>
          cases hqs
          cases hchildren
          refine ⟨[], .nil, ?_⟩
          simp [Node.hoisted, leadTokens, Element.lead, Element.withLead]
      | cons n items => cases hchildren
  | cons n parts =>
      cases items with
      | nil => cases hchildren
      | cons m items =>
          rw [List.map_cons, List.map_cons, List.cons_append, List.cons_append, Node.hoisted,
            List.cons.injEq] at hchildren
          obtain ⟨hm, hrest⟩ := hchildren
          cases hm
          obtain ⟨hsame, hlast⟩ := List.append_inj' hrest rfl
          have hinjective : ∀ m m' : Node, Element.node m = .node m' → m = m' :=
            fun _ _ h => Element.node.inj h
          obtain rfl := (List.map_inj_right hinjective).1 hsame
          cases hlast
          cases hqs with
          | @cons _ q _ qs hq hqs =>
              refine ⟨Tree.leadTokens n.lead q :: qs, .cons hq.unhoisted hqs, ?_⟩
              have happend : Tree.leadTokens n.lead (q ++ (qs.flatten ++ [last])) =
                  Tree.leadTokens n.lead q ++ (qs.flatten ++ [last]) := by
                by_cases hnil : q = []
                · have hlead : n.lead = "" := lead_eq_of_lexemes_eq_nil
                    (e := .node n) (fun m hm => by cases hm; exact hanchored n List.mem_cons_self)
                    (hq.unhoisted.eq_nil (by rw [hnil]; rfl))
                  rw [hlead, leadTokens_empty, leadTokens_empty]
                · exact leadTokens_append _ hnil _
              simpa [Node.hoisted, Element.lead] using happend

theorem importForms_of_rewritesParts {imports : List Node} {qs : List (List Token)}
    (hqs : List.Forall₂ (RewritesPart name) imports qs)
    (himports : ∀ n ∈ imports, n.kind = .java .importClause ∧ Grammar.ImportForm n.lexemes) :
    ∃ clauses : List (List Token), qs.flatten = clauses.flatten ∧
      (∀ c ∈ clauses, Grammar.ImportForm c) ∧ (clauses = [] → imports = []) := by
  induction hqs with
  | nil => exact ⟨[], rfl, nofun, fun _ => rfl⟩
  | cons hq _ ih =>
      obtain ⟨clauses, hflat, hclauses, _⟩ := ih fun n hn => himports n (List.mem_cons_of_mem _ hn)
      obtain ⟨c, others, hothers, hform⟩ :=
        importForms_of_rewrites (himports _ List.mem_cons_self).2 hq.rewrites
      refine ⟨c :: (others ++ clauses), ?_, fun d hd => ?_, nofun⟩
      · rw [List.flatten_cons, hflat, hothers, ← List.flatten_append, List.cons_append]
      · rw [← List.cons_append, List.mem_append] at hd
        exact hd.elim (hform d) (hclauses d)

theorem renamed_of_rewritesParts {parts : List Node} {qs : List (List Token)}
    (hqs : List.Forall₂ (RewritesPart name) parts qs)
    (hparts : ∀ n ∈ parts, n.kind ≠ .java .importClause) :
    List.Forall₂ (Renamed name) (parts.flatMap Node.lexemes) qs.flatten := by
  induction hqs with
  | nil => exact .nil
  | cons hq _ ih =>
      rw [List.flatMap_cons, List.flatten_cons]
      exact List.rel_append (hq.resolve_right fun h => hparts _ List.mem_cons_self h.1)
        (ih fun n hn => hparts n (List.mem_cons_of_mem _ hn))

theorem parses_rewritten {tokens tokens' : Tokens} {root : Node} (htokens : tokens.Genuine)
    (h : parseTokens tokens = .ok root) {items : List Node} {last : Token}
    (hchildren : root.children = items.map .node ++ [.token last]) {qs : List (List Token)}
    (hqs : List.Forall₂ (RewritesPart name) items qs)
    (htokens' : tokens'.toList.map Lexed.token = leadTokens root.lead (qs.flatten ++ [last])) :
    ∃ root', parseTokens tokens' = .ok root' := by
  obtain ⟨packages, imports, types, v, w, hrun⟩ := unit_run htokens h
  obtain ⟨qs', hqs', hsame⟩ := rewritesParts_hoisted hrun.root hrun.anchored hchildren hqs
  rw [hsame, Tokens.toList, List.map_append] at htokens'
  obtain ⟨hahead, hlast⟩ := List.append_inj' htokens' rfl
  obtain ⟨qs₁, typed, rfl, hqs₁, htyped⟩ := forall₂_append_left hqs'
  obtain ⟨packaged, imported, rfl, hpackaged, himported⟩ := forall₂_append_left hqs₁
  have hpasses : tokens'.Passes (packaged.flatten ++ (imported.flatten ++ typed.flatten))
      ⟨[], tokens'.last⟩ := by
    refine ⟨rfl, tokens'.ahead, (List.append_nil _).symm, ?_⟩
    rw [hahead]
    simp
  obtain ⟨v', hv', hpasses⟩ := Tokens.Passes.append_iff.1 hpasses
  obtain ⟨w', hw', hpasses⟩ := Tokens.Passes.append_iff.1 hpasses
  -- the types are parsed as before, whatever their identifiers are
  have hbehind : w'.ahead.map Lexed.token = typed.flatten := by
    obtain ⟨_, front, hfront, hmap⟩ := hpasses
    rw [hfront, List.append_nil, hmap]
  have hwordless : Relabelling.wordless.tokens w' = Relabelling.wordless.tokens w := by
    refine @wordless_tokens name _ _ ?_ ?_
    · rw [hrun.toEnd, hbehind]
      exact renamed_of_rewritesParts htyped hrun.types
    · rw [hw'.1, hv'.1, hrun.toTypes.1, hrun.toImports.1]
      simpa using hlast
  have htypes : TypesRun (tokens'.ahead.length + 1) w' := by
    refine hrun.run.renamed hwordless ?_ ?_
    · rw [hrun.toImports.length, hrun.toTypes.length]
      omega
    · rw [hv'.length, hw'.length]
      omega
  have hnone : isSign (w'.nth 0) "import" = false := by
    rw [isSign_wordless hwordless, hrun.noImport]
  obtain ⟨clauses, hflat, hclauses, hempty⟩ := importForms_of_rewritesParts himported hrun.imports
  rw [hflat] at hw'
  refine parses_of_runs ?_ hv' hclauses hw' hnone htypes
  rcases hrun.packages with ⟨rfl, hnoPackage⟩ | ⟨p, rfl, hkind, hform⟩
  · cases hpackaged
    obtain rfl := Tokens.Passes.nil_iff.1 hv'
    refine .inl ⟨rfl, ?_⟩
    cases clauses with
    | nil =>
        obtain rfl := hempty rfl
        obtain rfl := Tokens.Passes.nil_iff.1 hw'
        obtain rfl := Tokens.Passes.nil_iff.1 hrun.toImports
        obtain rfl := Tokens.Passes.nil_iff.1 hrun.toTypes
        rw [isSign_wordless hwordless, hnoPackage]
    | cons c clauses =>
        obtain ⟨t, us, rfl, ht, _⟩ := hclauses c List.mem_cons_self
        rw [List.flatten_cons, List.cons_append] at hw'
        rw [hw'.nth_zero, Bool.eq_false_iff]
        exact fun hpackage => absurd (Grammar.isSign_inj ht hpackage) (by decide)
  · obtain _ | ⟨hp, ⟨⟩⟩ := hpackaged
    have hrenamed := hp.resolve_right fun h => hkind h.1
    rw [List.flatten_singleton]
    exact .inr (hform.lookalike (hrenamed.imp fun _ _ => Renamed.lookalike))

theorem lexemes_unit {unit : Node} (hkind : unit.kind = .java .compilationUnit) {items : List Node}
    {last : Token} (hchildren : unit.children = items.map .node ++ [.token last]) :
    unit.lexemes = leadTokens unit.lead ((items.map Node.lexemes).flatten ++ [last]) := by
  rw [lexemes_eq, hkind, hchildren]
  show leadTokens unit.lead (Node.lexemesIn .sequence _) = _
  rw [lexemesIn_sequence_append, lexemesIn_nodes, List.flatMap_def]
  rfl

theorem parseUnit_rewritten {source : String} {unit : Node} (h : parseUnit source = .ok unit)
    (hname : IsIdentifier name) {items : List Node} {last : Token}
    (hchildren : unit.children = items.map .node ++ [.token last]) {qs : List (List Token)}
    (hqs : List.Forall₂ (RewritesPart name) items qs) :
    ∃ unit', parseUnit (printTokens (leadTokens unit.lead (qs.flatten ++ [last]))) = .ok unit' ∧
      unit'.lexemes = leadTokens unit.lead (qs.flatten ++ [last]) := by
  obtain ⟨tokens, htokens, hparse⟩ := bind_eq_ok.1 h
  obtain ⟨hgenuine, hend⟩ := genuine_tokenize htokens
  obtain ⟨hunit, hlexemes, _⟩ := unit_of_parseTokens hgenuine hend hparse
  have hparts := lexemes_unit hunit.kind hchildren
  have hapart : Apart false ((items.map Node.lexemes).flatten ++ [last]) := by
    have hlast : tokens.last.token.kind ≠ .identifier := by
      rw [hend]
      decide
    rw [← @Scan.apart_leadTokens false unit.lead, ← hparts, hlexemes, Tokens.toList,
      List.map_append, apart_append]
    exact ⟨apart_of_parseTokens hgenuine hparse, fun h => absurd h hlast, trivial⟩
  have hscans : Scan.Scans (leadTokens unit.lead ((items.map Node.lexemes).flatten ++ [last])) := by
    rw [← hparts, hlexemes]
    exact Scan.scans_tokensWithin htokens
  have hrewrites : List.Forall₂ (Rewrites name) (items.map Node.lexemes) qs :=
    List.forall₂_map_left_iff.2 (hqs.imp fun _ _ => RewritesPart.rewrites)
  have hscans' := Scan.scans_rewrites hname (by simp) hrewrites hscans hapart
  obtain ⟨tokens', htokens', hsame⟩ := tokenize_printTokens.2 hscans'
  obtain ⟨root, hroot⟩ := parses_rewritten hgenuine hparse hchildren hqs hsame
  have hunit' : parseUnit (printTokens (leadTokens unit.lead (qs.flatten ++ [last]))) = .ok root :=
    bind_eq_ok.2 ⟨tokens', htokens', hroot⟩
  obtain ⟨hgenuine', hend'⟩ := genuine_tokenize htokens'
  obtain ⟨_, hlexemes', _⟩ := unit_of_parseTokens hgenuine' hend' hroot
  exact ⟨root, hunit', hlexemes'.trans hsame⟩

end Codemod.Java
