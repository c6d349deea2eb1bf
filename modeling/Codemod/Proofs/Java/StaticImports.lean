import Codemod.Java.Access
import Codemod.Proofs.Java.Attributed
import Codemod.Proofs.Text.Parts
import Mathlib.Data.List.Basic

/-!
The owner and the member of a static import, and what becomes of them when another member is
put in; the static imports of a unit, and what they bring in for a call.
-/

namespace Codemod.Java

open Codemod.Tree

/-- The characters of the texts of some tokens. -/
def characters (ts : List Token) : List Char :=
  ts.flatMap fun t => t.text.toList

theorem leavesList_tokens (ts : List Token) : Node.leavesList (ts.map .token) = ts := by
  induction ts with
  | nil => rfl
  | cons t ts ih =>
      rw [List.map_cons, Node.leavesList, ih]
      rfl

theorem toList_bareText {n : Node} {ts : List Token} (h : n.children = ts.map .token) :
    n.bareText.toList = characters ts := by
  obtain ⟨kind, lead, children, markers, type?⟩ := n
  simp only at h
  rw [Node.bareText, Node.leaves, h, leavesList_tokens, String.toList_join, characters,
    List.flatMap_map]

theorem staticImportParts_eq {n name : Node} {words ts : List Token} {semicolon : Token}
    (hkind : n.kind = .java .importClause)
    (hchildren : n.children = words.map .token ++ [.node name, .token semicolon])
    (hname : name.kind = .java .qualifiedName) (hts : name.children = ts.map .token) :
    staticImportParts? n =
      if (words ++ [semicolon]).any (fun t => t.text == "static") then
        (Text.splitLast '.' (characters ts)).map fun parts =>
          (String.ofList parts.1, String.ofList parts.2)
      else none := by
  have htokens : n.tokens = words ++ [semicolon] := by
    simp only [Node.tokens, hchildren, List.filterMap_append, List.filterMap_map]
    congr 1
    exact List.filterMap_some
  have hfirst : n.firstChild? (.java .qualifiedName) = some name := by
    simp [Node.firstChild?, Node.childNodes, hchildren, List.filterMap_append,
      List.filterMap_map, Element.node?, Function.comp_def, hname]
  have hstatic : isStaticImport n =
      (words ++ [semicolon]).any fun t => t.text == "static" := by
    simp [isStaticImport, Node.hasToken, htokens, hkind]
  rw [staticImportParts?, hstatic]
  split_ifs
  · rw [qualifiedName?, hfirst]
    show ((Text.splitLast '.' name.bareText.toList).bind fun parts =>
      some (String.ofList parts.1, String.ofList parts.2)) = _
    rw [toList_bareText hts, Option.map_eq_bind]
    rfl
  · rfl

theorem lastIndex_append {α : Type} {p : α → Bool} (front behind : List α) {a : α} (h : p a = true)
    (hbehind : ∀ b ∈ behind, p b = false) :
    lastIndex? p (front ++ a :: behind) = some front.length := by
  induction front with
  | nil =>
      have hnone : lastIndex? p behind = none := by
        induction behind with
        | nil => rfl
        | cons b behind ih =>
            rw [lastIndex?, ih fun c hc => hbehind c (List.mem_cons_of_mem b hc)]
            simp [hbehind b List.mem_cons_self]
      simp [lastIndex?, hnone, h]
  | cons b front ih => rw [List.cons_append, lastIndex?, ih, List.length_cons]

theorem characters_append (ts us : List Token) :
    characters (ts ++ us) = characters ts ++ characters us :=
  List.flatMap_append

theorem characters_member (ts : List Token) {dot t : Token} (hdot : dot.text = ".") :
    characters (ts ++ [dot, t]) = characters ts ++ '.' :: t.text.toList := by
  simp [characters, hdot]

theorem member_of_parts {name : Node} {ts : List Token} {owner member : List Char}
    (hshape : KindShape .qualifiedName name.children) (hts : name.children = ts.map .token)
    (hparts : Text.splitLast '.' (characters ts) = some (owner, member)) (hstar : member ≠ ['*']) :
    ∃ us dot t, ts = us ++ [dot, t] ∧ Dotted us ∧ dot.text = "." ∧ IsPart t ∧
      owner = characters us ∧ member = t.text.toList := by
  have hinjective : ∀ t u, Element.token t = .token u → t = u := fun _ _ h => Element.token.inj h
  obtain ⟨vs, hvs, h | ⟨dot, star, hdot, hstarText, h⟩⟩ := hshape
  · obtain rfl := (List.map_inj_right hinjective).1 (hts.symm.trans h)
    cases hvs with
    | @part t ht =>
        have hnone : Text.splitLast '.' (characters [t]) = none := by
          rw [characters, List.flatMap_singleton]
          exact Text.splitLast_eq_none ht.2
        rw [hnone] at hparts
        cases hparts
    | @snoc us dot t hus hdot ht =>
        rw [characters_member us hdot, Text.splitLast_append _ ht.2] at hparts
        cases hparts
        exact ⟨us, dot, t, rfl, hus, hdot, ht, rfl, rfl⟩
  · obtain rfl := (List.map_inj_right hinjective).1 (hts.symm.trans h)
    rw [characters_member vs hdot, hstarText, Text.splitLast_append _ (by decide)] at hparts
    cases hparts
    exact absurd rfl hstar

theorem tokens_of_shape {children : List Element} (h : KindShape .qualifiedName children) :
    ∃ ts : List Token, children = ts.map .token := by
  obtain ⟨ts, _, h | ⟨dot, star, _, _, h⟩⟩ := h
  · exact ⟨ts, h⟩
  · exact ⟨_, h⟩

/-- A clause that imports one static member: the words in front of the name, the owner with dots,
and the member behind the last one. -/
theorem member_of_clause {n : Node} {owner member : String} (hshape : ClauseShaped n)
    (hkind : n.kind = .java .importClause) (hparts : staticImportParts? n = some (owner, member))
    (hmember : member ≠ "*") :
    ∃ (words us : List Token) (name : Node) (semicolon dot t : Token),
      name.kind = .java .qualifiedName ∧
        n.children = words.map .token ++ [.node name, .token semicolon] ∧
          name.children = (us ++ [dot, t]).map .token ∧ Dotted us ∧ dot.text = "." ∧ IsPart t ∧
            owner = String.ofList (characters us) ∧ member = t.text ∧
              ((words ++ [semicolon]).any fun t => t.text == "static") = true := by
  obtain ⟨words, name, semicolon, hname, hqualified, hchildren⟩ := hshape
  obtain ⟨ts, hts⟩ := tokens_of_shape hqualified
  rw [staticImportParts_eq hkind hchildren hname hts] at hparts
  split_ifs at hparts with hstatic
  obtain ⟨⟨owner', member'⟩, hsplit, heq⟩ := Option.map_eq_some_iff.1 hparts
  simp only [Prod.mk.injEq] at heq
  obtain ⟨rfl, rfl⟩ := heq
  have hstar : member' ≠ ['*'] := by
    rintro rfl
    exact hmember rfl
  obtain ⟨us, dot, t, rfl, hus, hdot, ht, rfl, rfl⟩ := member_of_parts hqualified hts hsplit hstar
  exact ⟨words, us, name, semicolon, dot, t, hname, hchildren, hts, hus, hdot, ht, rfl,
    String.ofList_toList, hstatic⟩

theorem identifier_of_parts {n : Node} {owner member : String} (hshape : ClauseShaped n)
    (hkind : n.kind = .java .importClause) (hparts : staticImportParts? n = some (owner, member))
    (hmember : member ≠ "*") : ∃ t ∈ n.leaves, t.kind = .identifier ∧ t.text = member := by
  obtain ⟨words, us, name, semicolon, dot, t, _, hchildren, hts, _, _, ht, _, hmember, _⟩ :=
    member_of_clause hshape hkind hparts hmember
  refine ⟨t, mem_leaves.2 ⟨name, ?_, by simp [hts]⟩, ht.1, hmember.symm⟩
  exact mem_preorder.2 (.inr ⟨name, by simp [hchildren], mem_preorder_self name⟩)

theorem lexemes_clause {n qualified : Node} {words ts : List Token} {semicolon : Token}
    (hkind : n.kind = .java .importClause) (hname : qualified.kind = .java .qualifiedName)
    (hchildren : n.children = words.map .token ++ [.node qualified, .token semicolon])
    (hts : qualified.children = ts.map .token) :
    n.lexemes = leadTokens n.lead (words ++ (leadTokens qualified.lead ts ++ [semicolon])) := by
  have hqualified : qualified.lexemes = leadTokens qualified.lead ts := by
    have htokens := lexemesIn_append_tokens .sequence [] ts
    rw [lexemes_eq, hname, hts]
    exact congrArg _ htokens
  rw [lexemes_eq, hkind, hchildren]
  show leadTokens n.lead (Node.lexemesIn .sequence _) = _
  rw [lexemesIn_tokens_append]
  simp [Node.lexemesIn, Element.lexemes, Layout.delimiterTokens, hqualified]

theorem lexemes_clause_cons {n qualified : Node} {word u semicolon : Token} {words us : List Token}
    (hkind : n.kind = .java .importClause) (hname : qualified.kind = .java .qualifiedName)
    (hchildren : n.children = (word :: words).map .token ++ [.node qualified, .token semicolon])
    (hts : qualified.children = (u :: us).map .token) (hlead : word.lead = "") :
    n.lexemes = { word with lead := n.lead } ::
      (words ++ { u with lead := qualified.lead ++ u.lead } :: us ++ [semicolon]) := by
  rw [lexemes_clause hkind hname hchildren hts]
  simp [leadTokens, hlead]

theorem Dotted.head {ts : List Token} (h : Dotted ts) : ∃ t us, ts = t :: us ∧ IsPart t := by
  induction h with
  | @part t h => exact ⟨t, [], rfl, h⟩
  | snoc _ _ _ ih =>
      obtain ⟨t, us, rfl, h⟩ := ih
      exact ⟨t, _, rfl, h⟩

/-- The clause with another name in place of the last one. -/
theorem withImportMember_eq {n name : Node} {words us : List Token} {semicolon dot t : Token}
    (hname : name.kind = .java .qualifiedName)
    (hchildren : n.children = words.map .token ++ [.node name, .token semicolon])
    (hts : name.children = (us ++ [dot, t]).map .token) (ht : t.kind = .identifier)
    (member : String) :
    withImportMember? n member = some { n with
      children := words.map .token ++
        [ .node { name with children := (us ++ [dot, { t with text := member }]).map .token },
          .token semicolon ] } := by
  have hposition : n.positionOf? (.java .qualifiedName) = some words.length := by
    have hwords : (words.map Element.token).findIdx?
        (fun e => e.node?.any fun c => c.kind == .java .qualifiedName) = none :=
      List.findIdx?_eq_none_iff.2 (by simp [Element.node?])
    rw [Node.positionOf?, hchildren, List.findIdx?_append, hwords]
    simp [List.findIdx?_cons, Element.node?, hname]
  have hlast : lastIndex? (fun e => e.token?.any fun t => t.kind == .identifier) name.children =
      some (us.length + 1) := by
    have hsnoc : name.children = (us ++ [dot]).map .token ++ [.token t] := by
      rw [hts]
      simp
    rw [hsnoc, lastIndex_append _ [] (by simp [Element.token?, ht]) (by simp)]
    simp
  have hclause : n.children[words.length]? = some (.node name) := by simp [hchildren]
  have htoken : name.children[us.length + 1]? = some (.token t) := by simp [hts]
  simp only [withImportMember?, Option.bind_eq_bind, Option.bind_eq_some_iff]
  refine ⟨_, hposition, _, hclause, name, rfl, _, hlast, _, htoken, t, rfl, ?_⟩
  simp [Node.withChild, hchildren, hts]

/-- Another name can be put in place of the member of any import of one static member. -/
theorem withImportMember_of_parts {n : Node} {owner member name' : String}
    (hshape : ClauseShaped n) (hkind : n.kind = .java .importClause)
    (hparts : staticImportParts? n = some (owner, member)) (hmember : member ≠ "*")
    (hname' : '.' ∉ name'.toList) :
    ∃ n', withImportMember? n name' = some n' ∧ n'.kind = .java .importClause ∧ ClauseShaped n' ∧
      staticImportParts? n' = some (owner, name') := by
  obtain ⟨words, us, name, semicolon, dot, t, hname, hchildren, hts, hus, hdot, ht, rfl, rfl,
    hstatic⟩ := member_of_clause hshape hkind hparts hmember
  have hpart : IsPart { t with text := name' } := ⟨ht.1, hname'⟩
  have hwith := withImportMember_eq hname hchildren hts ht.1 name'
  obtain ⟨named, hnamed⟩ : ∃ named : Node,
      named = { name with children := (us ++ [dot, { t with text := name' }]).map .token } :=
    ⟨_, rfl⟩
  have hkind' : named.kind = .java .qualifiedName := by rw [hnamed, hname]
  have hchildren' : named.children = (us ++ [dot, { t with text := name' }]).map .token := by
    rw [hnamed]
  rw [← hnamed] at hwith
  refine ⟨_, hwith, hkind, ⟨words, named, semicolon, hkind', ?_, rfl⟩, ?_⟩
  · exact ⟨us ++ [dot, _], .snoc hus hdot hpart, .inl hchildren'⟩
  · rw [@staticImportParts_eq _ named words _ semicolon (by exact hkind) (by rfl) hkind' hchildren',
      if_pos hstatic, characters_member us hdot, Text.splitLast_append _ hname']
    simp

/-! ### What static imports bring in -/

namespace Scope

theorem addImport_static {clause : Node} {parts : String × String} (scope : Scope)
    (h : staticImportParts? clause = some parts) :
    scope.addImport clause = { scope with staticImports := scope.staticImports ++ [parts] } := by
  rw [addImport, h]

theorem addImport_other {clause : Node} (scope : Scope) (staticImports : List (String × String))
    (h : staticImportParts? clause = none) :
    ({ scope with staticImports } : Scope).addImport clause =
      { scope.addImport clause with staticImports } := by
  rw [addImport, addImport, h]
  cases qualifiedName? clause with
  | none => rfl
  | some name =>
      simp only
      cases onDemandPackage? name <;> rfl

theorem foldl_addImport (clauses : List Node) (scope : Scope) :
    clauses.foldl addImport scope =
      { (clauses.filter fun c => (staticImportParts? c).isNone).foldl addImport scope with
        staticImports := scope.staticImports ++ clauses.filterMap staticImportParts? } := by
  have hother : ∀ (clauses : List Node) (scope : Scope) (staticImports : List (String × String)),
      (clauses.filter fun c => (staticImportParts? c).isNone).foldl addImport
          { scope with staticImports } =
        { (clauses.filter fun c => (staticImportParts? c).isNone).foldl addImport scope with
          staticImports } := by
    intro clauses
    induction clauses with
    | nil => exact fun _ _ => rfl
    | cons c clauses ih =>
        intro scope staticImports
        cases hparts : staticImportParts? c with
        | some parts => simpa [hparts] using ih scope staticImports
        | none =>
            simp only [List.filter_cons, hparts, Option.isNone_none, if_true, List.foldl_cons,
              addImport_other scope staticImports hparts]
            exact ih _ staticImports
  induction clauses generalizing scope with
  | nil => simp
  | cons c clauses ih =>
      cases hparts : staticImportParts? c with
      | some parts =>
          rw [List.foldl_cons, ih, addImport_static scope hparts, hother]
          simp [hparts]
      | none =>
          have hsame : (scope.addImport c).staticImports = scope.staticImports := by
            have hother := addImport_other scope scope.staticImports hparts
            rw [hother]
          rw [List.foldl_cons, ih, hsame]
          simp [hparts]

theorem ofUnit_eq (unit : Node) (known : List String) :
    ofUnit unit known =
      { (unit.childNodes.filter fun c => c.kind == .java .importClause
            && (staticImportParts? c).isNone).foldl addImport
          { known, package := packageOf unit } with
        staticImports := unit.childNodes.filterMap staticImportParts? } := by
  have hclauses : (unit.childNodes.filter fun c => c.kind == .java .importClause).filterMap
      staticImportParts? = unit.childNodes.filterMap staticImportParts? := by
    rw [List.filterMap_filter]
    refine List.filterMap_congr fun c _ => ?_
    split_ifs with hkind
    · rfl
    · rw [staticImportParts?, isStaticImport, Bool.eq_false_iff.2 hkind]
      rfl
  rw [ofUnit, foldl_addImport, List.filter_filter, hclauses]
  simp only [Bool.and_comm, List.nil_append]

theorem staticImports_ofUnit (unit : Node) (known : List String) :
    (ofUnit unit known).staticImports = unit.childNodes.filterMap staticImportParts? := by
  rw [ofUnit_eq]

end Scope

/-- The method that one static import brings in for a call, static or not. -/
def brought? (symbols : SymbolTable) (name : String) (arguments : List TypeRef)
    (parts : String × String) : Option Signature :=
  if parts.2 = name ∨ parts.2 = "*" then symbols.findMethod? parts.1 name arguments else none

theorem importedMethod_eq (symbols : SymbolTable) (scope : Scope) (name : String) (arguments : List TypeRef) :
    importedMethod? symbols scope name arguments =
      (scope.staticImports.findSome? (brought? symbols name arguments)).filter fun m =>
        m.isStatic := by
  have howners : ∀ imports : List (String × String),
      ((imports.filter fun i => i.2 == name || i.2 == "*").map Prod.fst).findSome?
          (fun owner => symbols.findMethod? owner name arguments) =
        imports.findSome? (brought? symbols name arguments) := by
    intro imports
    induction imports with
    | nil => rfl
    | cons i imports ih =>
        rw [List.findSome?_cons, ← ih, brought?, List.filter_cons]
        simp only [Bool.or_eq_true, beq_iff_eq]
        split_ifs <;> rfl
  rw [importedMethod?, howners]

end Codemod.Java
