import Codemod.Proofs.Java.Nesting
import Codemod.Proofs.Java.Places

/-!
Trees that differ in one local variable declaration. All that attribution reads off a node around the
declaration is the same in both: types, names and signatures stand apart from statements, and the text
of an expression with statements in it holds a brace, so that it is the name of no class.
-/

namespace Codemod.Java

open Codemod.Tree

/-- The node nests as the grammar says, and statements stand in it between braces. -/
structure Braced (n : Node) : Prop where
  java : ∃ kind, n.kind = .java kind
  nested : Nested n
  brace : n.kind = .java .block ∨ isBody n = true → n.hasToken "\x7b" = true

/-- The second tree is the first one with another local variable declaration in place of one below
it. -/
inductive Retyped : Node → Node → Prop where
  | here {n d d' : Node} {before behind : List Element} (hn : Braced n) (hlocal : isBody n = false)
      (hd : d.kind = .java .variableDeclaration) (hd' : d'.kind = .java .variableDeclaration)
      (hchildren : n.children = before ++ .node d :: behind) :
      Retyped n { n with children := before ++ .node d' :: behind }
  | inside {n c c' : Node} {before behind : List Element} (hn : Braced n) (h : Retyped c c')
      (hchildren : n.children = before ++ .node c :: behind) :
      Retyped n { n with children := before ++ .node c' :: behind }

/-! ### Kinds around a statement -/

/-- A node of this kind holds no statement at any depth: it is part of a name or a type. -/
def Kind.isName : Kind → Bool
  | .packageClause | .importClause | .qualifiedName | .typeParameters | .typeParameter | .extendsClause
  | .implementsClause | .throwsClause | .typeTree | .typeArguments => true
  | _ => false

/-- A node of this kind is a statement, and its statements need no braces around them. -/
def Kind.branches : Kind → Bool
  | .ifStatement | .whileStatement => true
  | _ => false

section
variable {k parent : Kind} (h : k ∈ parent.holds)
include h

theorem isName_of_holds (hparent : parent.isName = true) : k.isName = true := by
  have hall : ∀ parent : Kind, parent.isName = true → ∀ k ∈ parent.holds, k.isName = true := by
    intro parent
    cases parent <;> decide
  exact hall parent hparent k h

theorem holds_statement (hk : k = .variableDeclaration ∨ k.branches = true) :
    parent = .classBody ∨ parent = .enumBody ∨ parent = .block ∨ parent.branches = true := by
  have hall : ∀ parent : Kind, ∀ k ∈ parent.holds, k = .variableDeclaration ∨ k.branches = true →
      parent = .classBody ∨ parent = .enumBody ∨ parent = .block ∨ parent.branches = true := by
    intro parent
    cases parent <;> decide
  exact hall parent k h hk

end

theorem mem_characters_of_hasToken {n : Node} {text : String} (h : n.hasToken text = true) {ch : Char}
    (hch : ch ∈ text.toList) : ch ∈ characters n.leaves := by
  obtain ⟨t, ht, htext⟩ := List.any_eq_true.1 h
  obtain ⟨e, he, hte⟩ := List.mem_filterMap.1 ht
  cases e with
  | node d => cases hte
  | token u =>
      cases hte
      refine List.mem_flatMap.2 ⟨t, mem_leaves.2 ⟨n, mem_preorder_self n, he⟩, ?_⟩
      rwa [beq_iff_eq.1 htext]

theorem mem_characters_of_child {n c : Node} (h : Element.node c ∈ n.children) {ch : Char}
    (hch : ch ∈ characters c.leaves) : ch ∈ characters n.leaves := by
  obtain ⟨t, ht, hch⟩ := List.mem_flatMap.1 hch
  obtain ⟨m, hm, ht⟩ := mem_leaves.1 ht
  exact List.mem_flatMap.2 ⟨t, mem_leaves.2 ⟨m, mem_preorder.2 (.inr ⟨c, h, hm⟩), ht⟩, hch⟩

theorem Braced.around_variable {n d : Node} (hn : Braced n) (hd : Element.node d ∈ n.children)
    (hkind : d.kind = .java .variableDeclaration) (hlocal : isBody n = false) {k : Kind}
    (hk : n.kind = .java k) : k = .block ∨ k.branches = true := by
  obtain ⟨_, hheld, hkind'⟩ := hn.nested k hk d hd
  cases hkind.symm.trans hkind'
  rcases holds_statement hheld (.inl rfl) with rfl | rfl | h
  · simp [isBody, hk] at hlocal
  · simp [isBody, hk] at hlocal
  · exact h

/-- Both trees are the same, or the second one differs in a local variable declaration. -/
abbrev Near (n n' : Node) : Prop :=
  n' = n ∨ Retyped n n'

theorem forall₂_near (ns : List Node) : List.Forall₂ Near ns ns :=
  List.forall₂_same.2 fun _ _ => .inl rfl

theorem map_near {α : Type} {f : Node → α} {ns ns' : List Node}
    (h : List.Forall₂ Near ns ns')
    (hf : ∀ n n', Retyped n n' → f n' = f n) : ns'.map f = ns.map f := by
  induction h with
  | nil => rfl
  | cons hn _ ih =>
      rw [List.map_cons, List.map_cons, ih]
      rcases hn with rfl | hn
      · rfl
      · rw [hf _ _ hn]

namespace Retyped

variable {n n' : Node} (h : Retyped n n')
include h

theorem kind : n'.kind = n.kind := by
  cases h <;> rfl

theorem type : n'.type? = n.type? := by
  cases h <;> rfl

theorem exists_child :
    ∃ c c' before behind, n.children = before ++ .node c :: behind ∧
      n' = { n with children := before ++ .node c' :: behind } ∧ c'.kind = c.kind ∧
      (c.kind = .java .variableDeclaration ∧ isBody n = false ∨ Retyped c c') := by
  cases h with
  | here _ hlocal hd hd' hchildren =>
      exact ⟨_, _, _, _, hchildren, rfl, hd'.trans hd.symm, .inl ⟨hd, hlocal⟩⟩
  | inside _ hc hchildren => exact ⟨_, _, _, _, hchildren, rfl, hc.kind, .inr hc⟩

theorem braced : Braced n := by
  cases h with
  | here hn => exact hn
  | inside hn => exact hn

theorem tokens : n'.tokens = n.tokens := by
  obtain ⟨c, c', before, behind, hchildren, rfl, -⟩ := h.exists_child
  simp [Node.tokens, hchildren, List.filterMap_cons, Element.token?]

theorem hasToken (text : String) : n'.hasToken text = n.hasToken text := by
  rw [Node.hasToken, Node.hasToken, h.tokens]

theorem not_isName {k : Kind} (hk : n.kind = .java k) : k.isName = false := by
  have hparent : ∀ {n c : Node} {k kind : Kind}, Braced n → Element.node c ∈ n.children →
      n.kind = .java k → c.kind = .java kind → kind.isName = false → k.isName = false := by
    intro n c k kind hn hc hk hkind hname
    obtain ⟨_, hheld, hkind'⟩ := hn.nested k hk c hc
    cases hkind.symm.trans hkind'
    cases hparent : k.isName with
    | false => rfl
    | true => exact absurd (hname.symm.trans (isName_of_holds hheld hparent)) (by decide)
  induction h generalizing k with
  | here hn _ hd _ hchildren => exact hparent hn (by simp [hchildren]) hk hd rfl
  | inside hn hc hchildren ih =>
      obtain ⟨kind, hkind⟩ := hc.braced.java
      exact hparent hn (by simp [hchildren]) hk hkind (ih hkind)

theorem brace_or_branches : (∃ k : Kind, n.kind = .java k ∧ k.branches = true) ∨
    '\x7b' ∈ characters n.leaves ∧ '\x7b' ∈ characters n'.leaves := by
  have hparent : ∀ {n n' c : Node} {kind : Kind}, Braced n → Retyped n n' →
      Element.node c ∈ n.children → c.kind = .java kind →
        kind = .variableDeclaration ∨ kind.branches = true →
          (∃ k : Kind, n.kind = .java k ∧ k.branches = true) ∨
            '\x7b' ∈ characters n.leaves ∧ '\x7b' ∈ characters n'.leaves := by
    intro n n' c kind hn h hc hkind hstatement
    obtain ⟨k, hk⟩ := hn.java
    obtain ⟨_, hheld, hkind'⟩ := hn.nested k hk c hc
    cases hkind.symm.trans hkind'
    have hbrace : n.kind = .java .block ∨ isBody n = true →
        '\x7b' ∈ characters n.leaves ∧ '\x7b' ∈ characters n'.leaves := by
      intro hopens
      have htoken := hn.brace hopens
      exact ⟨mem_characters_of_hasToken htoken (by decide),
        mem_characters_of_hasToken ((h.hasToken _).trans htoken) (by decide)⟩
    rcases holds_statement hheld hstatement with rfl | rfl | rfl | hbranches
    · exact .inr (hbrace (.inr (by simp [isBody, hk])))
    · exact .inr (hbrace (.inr (by simp [isBody, hk])))
    · exact .inr (hbrace (.inl hk))
    · exact .inl ⟨k, hk, hbranches⟩
  induction h with
  | here hn hlocal hd hd' hchildren =>
      exact hparent hn (.here hn hlocal hd hd' hchildren) (by simp [hchildren]) hd (.inl rfl)
  | @inside n c c' before behind hn hc hchildren ih =>
      have hmem : Element.node c ∈ n.children := by simp [hchildren]
      rcases ih with ⟨kind, hkind, hbranches⟩ | ⟨hbrace, hbrace'⟩
      · exact hparent hn (.inside hn hc hchildren) hmem hkind (.inr hbranches)
      · refine .inr ⟨mem_characters_of_child hmem hbrace, mem_characters_of_child ?_ hbrace'⟩
        simp

/-! ### Children -/

theorem childNodes : ∃ c c' before behind, n.childNodes = before ++ c :: behind ∧
    n'.childNodes = before ++ c' :: behind ∧ c'.kind = c.kind ∧
    (c.kind = .java .variableDeclaration ∧ isBody n = false ∨ Retyped c c') := by
  obtain ⟨c, c', before, behind, hchildren, rfl, hkind, hc⟩ := h.exists_child
  refine ⟨c, c', before.filterMap Element.node?, behind.filterMap Element.node?, ?_, ?_, hkind, hc⟩
  · simp [Node.childNodes, hchildren, Element.node?]
  · simp [Node.childNodes, Element.node?]

theorem firstChild (kind : Tree.Kind) (hkind : kind ≠ .java .variableDeclaration) :
    n'.firstChild? kind = n.firstChild? kind ∨
      ∃ c c', n.firstChild? kind = some c ∧ n'.firstChild? kind = some c' ∧ Retyped c c' := by
  obtain ⟨c, c', before, behind, hnodes, hnodes', hsame, hc⟩ := h.childNodes
  rw [Node.firstChild?, Node.firstChild?, hnodes, hnodes', List.find?_append, List.find?_append,
    List.find?_cons, List.find?_cons, hsame]
  cases before.find? fun c => c.kind == kind with
  | some first => exact .inl rfl
  | none =>
      cases hfound : c.kind == kind with
      | false => exact .inl rfl
      | true =>
          rcases hc with ⟨hvariable, -⟩ | hc
          · exact absurd ((beq_iff_eq.1 hfound).symm.trans hvariable) hkind
          · exact .inr ⟨c, c', rfl, rfl, hc⟩

theorem firstChild_name {k : Kind} (hk : k.isName = true) :
    n'.firstChild? (.java k) = n.firstChild? (.java k) := by
  have hkind : Tree.Kind.java k ≠ .java .variableDeclaration := by
    rintro hvariable
    cases hvariable
    cases hk
  rcases h.firstChild _ hkind with hsame | ⟨c, c', hfirst, -, hc⟩
  · exact hsame
  · have hc' : c.kind = .java k := by simpa using List.find?_some hfirst
    exact absurd (hk.symm.trans (hc.not_isName hc')) (by decide)

theorem children_near (hn : ∀ k : Kind, n.kind = .java k → k ≠ .block ∧ k.branches = false) :
    List.Forall₂ Near n.childNodes n'.childNodes := by
  obtain ⟨c, c', before, behind, hnodes, hnodes', -, hc⟩ := h.childNodes
  have hc : Retyped c c' := by
    refine hc.resolve_left ?_
    rintro ⟨hvariable, hlocal⟩
    obtain ⟨k, hk⟩ := h.braced.java
    have hmem : Element.node c ∈ n.children :=
      mem_childNodes.1 (show c ∈ n.childNodes by simp [hnodes])
    obtain ⟨hblock, hbranches⟩ := hn k hk
    rcases h.braced.around_variable hmem hvariable hlocal hk with rfl | hk
    · exact hblock rfl
    · exact absurd (hk.symm.trans hbranches) (by decide)
  rw [hnodes, hnodes']
  exact List.rel_append (forall₂_near before) (.cons (.inr hc) (forall₂_near behind))

theorem dimensions : dimensions n' = dimensions n := by
  obtain ⟨c, c', before, behind, hnodes, hnodes', hsame, -⟩ := h.childNodes
  rw [Java.dimensions, Java.dimensions, hnodes, hnodes', List.countP_append, List.countP_append,
    List.countP_cons, List.countP_cons, hsame]

/-! ### Types -/

theorem childType (scope : Scope) : scope.childType n' = scope.childType n := by
  rw [Scope.childType, Scope.childType, h.firstChild_name rfl]

theorem parametersOf : List.Forall₂ Near (Scope.parametersOf n) (Scope.parametersOf n') := by
  rw [Scope.parametersOf, Scope.parametersOf]
  rcases h.firstChild (.java .parameters) (by decide) with hsame | ⟨c, c', hlist, hlist', hc⟩
  · rw [hsame]
    exact forall₂_near _
  · have hkind : c.kind = .java .parameters := by simpa using List.find?_some hlist
    rw [hlist, hlist']
    refine hc.children_near fun k hk => ?_
    cases hkind.symm.trans hk
    decide

theorem parameterType (scope : Scope) : scope.parameterType n' = scope.parameterType n := by
  rw [Scope.parameterType, Scope.parameterType, h.hasToken, h.childType, h.dimensions]

theorem declaredName : declaredName? n' = declaredName? n := by
  rw [declaredName?, declaredName?, h.tokens]

theorem firstIdentifier : firstIdentifier? n' = firstIdentifier? n := by
  rw [firstIdentifier?, firstIdentifier?, h.tokens]

theorem methodName : methodName? n' = methodName? n := by
  obtain ⟨c, c', before, behind, hchildren, rfl, hkind, -⟩ := h.exists_child
  refine methodName_skeleton rfl ?_
  simp [hchildren, skeleton, hkind]

theorem parameterFrame (scope : Scope) : parameterFrame scope n' = parameterFrame scope n := by
  have hparameters := h.parametersOf
  rw [Java.parameterFrame, Java.parameterFrame]
  generalize Scope.parametersOf n = ps, Scope.parametersOf n' = ps',
    ([] : Bindings TypeRef) = frame at hparameters ⊢
  induction hparameters generalizing frame with
  | nil => rfl
  | cons hp _ ih =>
      rw [List.foldl_cons, List.foldl_cons, ih]
      rcases hp with rfl | hp
      · rfl
      · rw [hp.declaredName, hp.parameterType]

theorem catchFrame (scope : Scope) : catchFrame scope n' = catchFrame scope n := by
  rw [Java.catchFrame, Java.catchFrame, h.declaredName, h.hasToken, h.childType]

theorem hasModifier (modifier : String) : hasModifier n' modifier = hasModifier n modifier := by
  rw [Java.hasModifier, Java.hasModifier]
  rcases h.firstChild (.java .modifiers) (by decide) with hsame | ⟨c, c', hlist, hlist', hc⟩
  · rw [hsame]
  · rw [hlist, hlist', Option.any_some, Option.any_some, hc.hasToken]

theorem method (scope : Scope) (declaringType : String) :
    scope.method? n' declaringType = scope.method? n declaringType := by
  have hparameters : (Scope.parametersOf n').map scope.parameterType =
      (Scope.parametersOf n).map scope.parameterType :=
    map_near h.parametersOf fun _ _ hp => hp.parameterType scope
  have hellipsis : ((Scope.parametersOf n').any fun p => p.hasToken "...") =
      (Scope.parametersOf n).any fun p => p.hasToken "..." := by
    have hmap := map_near (f := fun p => p.hasToken "...") h.parametersOf fun _ _ hp => hp.hasToken _
    simpa only [List.any_map, Function.id_comp] using congrArg (fun bs : List Bool => bs.any id) hmap
  rw [Scope.method?, Scope.method?, isConstructor, isConstructor, h.kind, h.firstChild_name rfl,
    h.methodName, hparameters, hellipsis, h.childType, h.hasModifier]

theorem enter (context : Context) : context.enter n' = context.enter n := by
  have hname : className? n' = className? n := h.firstIdentifier
  rw [Context.enter, Context.enter, h.kind, hname, h.parameterFrame, h.catchFrame]

theorem declaredVariables (scope : Scope) {infer : Node → TypeRef}
    (hinfer : ∀ e e', e'.kind = e.kind → e.kind = .java .variableDeclaration ∨ Retyped e e' →
      infer e' = infer e) : scope.declaredVariables n' infer = scope.declaredVariables n infer := by
  rw [Scope.declaredVariables, Scope.declaredVariables, h.firstChild_name rfl]
  have hinitial : ∀ declared declared', Retyped declared declared' →
      (Scope.initialValue? declared').map infer = (Scope.initialValue? declared).map infer := by
    intro declared declared' hdeclared
    obtain ⟨c, c', before, behind, hnodes, hnodes', hkind, hc⟩ := hdeclared.childNodes
    rw [Scope.initialValue?, Scope.initialValue?, hdeclared.hasToken, hnodes, hnodes']
    split_ifs
    · rw [List.getLast?_append, List.getLast?_append]
      cases behind with
      | nil => simp [hinfer c c' hkind (hc.imp_left And.left)]
      | cons b behind => simp
    · rfl
  rcases h.firstChild (.java .declarators) (by decide) with hsame | ⟨c, c', hlist, hlist', hc⟩
  · rw [hsame]
  · rw [hlist, hlist']
    cases n.firstChild? (.java .typeTree) with
    | none => rfl
    | some tree =>
        have hkind : c.kind = .java .declarators := by simpa using List.find?_some hlist
        have hnear := hc.children_near fun k hk => by
          cases hkind.symm.trans hk
          decide
        have hmap := map_near (f := fun declared => declared.tokens.head?.map fun name =>
          let type := if tree.bareText == "var" then
              ((Scope.initialValue? declared).map infer).getD .unknown
            else scope.resolveTree tree
          (name.text, type.arrays (Java.dimensions declared))) hnear fun _ _ hdeclared => by
            rw [hdeclared.tokens, hinitial _ _ hdeclared, hdeclared.dimensions]
        simpa only [List.filterMap_map, Function.id_comp] using
          congrArg (fun os => List.filterMap id os) hmap

end Retyped

theorem typesOf_eq (symbols : SymbolTable) (context : Context) (es : List Element) :
    typesOf symbols context es = (es.filterMap Element.node?).map (typeOf symbols context) := by
  induction es with
  | nil => rfl
  | cons e es ih =>
      rw [typesOf, ih]
      cases e <;> rfl

theorem resolveCall_eq (symbols : SymbolTable) (context : Context) (call : Node) :
    resolveCall? symbols context call =
      (methodName? call).bind fun name =>
        ((call.firstChild? (.java .arguments)).map
          fun list => list.childNodes.map (typeOf symbols context)).bind fun arguments =>
            match (receiver? call).map (typeOf symbols context) with
            | some type => type.className?.bind fun owner =>
                (symbols.findMethod? owner name arguments).map fun m => .invocation m false
            | none => unqualifiedCall? symbols context.scope name arguments := by
  simp only [resolveCall?, Option.bind_eq_bind, Option.bind_map, Function.comp_def]
  cases receiver? call with
  | none => rfl
  | some receiver =>
      simp only [Option.map_eq_bind]
      rfl

section
variable {symbols : SymbolTable} (hbrace : ∀ c ∈ symbols.classes, '\x7b' ∉ c.name.toList)
include hbrace

theorem contains_of_brace {n : Node} (h : '\x7b' ∈ characters n.leaves) :
    symbols.contains n.bareText = false := by
  rw [SymbolTable.contains, Option.isSome_eq_false_iff, Option.isNone_iff_eq_none,
    SymbolTable.class?, List.find?_eq_none]
  intro c hc hname
  refine hbrace c hc ?_
  rw [beq_iff_eq.1 hname, Node.bareText, String.toList_join]
  rwa [characters, ← List.flatMap_map] at h

theorem Retyped.typeOf {n n' : Node} (h : Retyped n n') (context : Context) :
    typeOf symbols context n' = typeOf symbols context n := by
  induction h with
  | @here n d d' before behind hn hlocal hd hd' hchildren =>
      obtain ⟨k, hk⟩ := hn.java
      have hstatement := hn.around_variable (by simp [hchildren]) hd hlocal hk
      obtain ⟨kind, lead, children, markers, type?⟩ := n
      cases hk
      cases k <;> first | rfl | simp [Kind.branches] at hstatement
  | @inside n c c' before behind hn hc hchildren ih =>
      have h := Retyped.inside hn hc hchildren
      have hoperands : typesOf symbols context (before ++ .node c' :: behind) =
          typesOf symbols context n.children := by
        simp [typesOf_eq, hchildren, Element.node?, ih]
      have htokens := h.tokens
      have htoken := h.hasToken
      have hchild := h.childType context.scope
      have htree := h.firstChild_name (k := .typeTree) rfl
      have hdimensions := h.dimensions
      have htext := h.brace_or_branches
      obtain ⟨kind, lead, children, markers, type?⟩ := n
      unfold Java.typeOf
      cases kind with
      | yaml kind => rfl
      | java kind =>
          cases kind <;> dsimp only
          case literal => rw [htokens]
          case identifier => rw [htokens]
          case fieldAccess =>
            obtain ⟨hbefore, hbehind⟩ := htext.resolve_left (by rintro ⟨k, ⟨⟩, ⟨⟩⟩)
            rw [contains_of_brace hbrace hbefore, contains_of_brace hbrace hbehind, htokens, hoperands]
            rfl
          case newClass => exact hchild
          case cast => exact hchild
          case newArray => rw [htree, hdimensions, hchild]
          case parenthesized => rw [htoken, hoperands]
          case unary => rw [htoken, hoperands]
          case conditional => rw [hoperands]
          case arrayAccess => rw [hoperands]
          case binary => rw [htokens, hoperands]

theorem typeOf_child {c c' : Node} (hkind : c'.kind = c.kind)
    (hc : c.kind = .java .variableDeclaration ∨ Retyped c c') (context : Context) :
    typeOf symbols context c' = typeOf symbols context c := by
  rcases hc with hvariable | hc
  · obtain ⟨kind, lead, children, markers, type?⟩ := c
    obtain ⟨kind', lead', children', markers', type?'⟩ := c'
    cases hkind
    cases hvariable
    rfl
  · exact hc.typeOf hbrace context

theorem Retyped.resolveCall {n n' : Node} (h : Retyped n n') (context : Context) :
    resolveCall? symbols context n' = resolveCall? symbols context n := by
  have htypes : ∀ {list list' : Node}, Retyped list list' →
      list'.childNodes.map (Java.typeOf symbols context) =
        list.childNodes.map (Java.typeOf symbols context) := by
    intro list list' hlist
    obtain ⟨c, c', before, behind, hnodes, hnodes', hkind, hc⟩ := hlist.childNodes
    rw [hnodes, hnodes', List.map_append, List.map_append, List.map_cons, List.map_cons,
      typeOf_child hbrace hkind (hc.imp_left And.left)]
  have hlist : (n'.firstChild? (.java .arguments)).map
        (fun list => list.childNodes.map (Java.typeOf symbols context)) =
      (n.firstChild? (.java .arguments)).map
        fun list => list.childNodes.map (Java.typeOf symbols context) := by
    rcases h.firstChild (.java .arguments) (by decide) with hsame | ⟨c, c', hc, hc', hlist⟩
    · rw [hsame]
    · rw [hc, hc', Option.map_some, Option.map_some, htypes hlist]
  have hreceiver : (receiver? n').map (Java.typeOf symbols context) =
      (receiver? n).map (Java.typeOf symbols context) := by
    obtain ⟨c, c', before, behind, hchildren, rfl, hkind, hc⟩ := h.exists_child
    rw [receiver?, receiver?, hchildren]
    cases before with
    | nil => simp [Element.node?, typeOf_child hbrace hkind (hc.imp_left And.left)]
    | cons e before => rfl
  rw [resolveCall_eq, resolveCall_eq, h.methodName, hlist, hreceiver]

theorem Retyped.leave {n n' : Node} (h : Retyped n n') (cursor : Cursor) (context : Context) :
    found? symbols n' cursor context = found? symbols n cursor context ∧
      ((attributionHooks symbols).visitor.leave n' cursor context).2 =
        ((attributionHooks symbols).visitor.leave n cursor context).2 := by
  by_cases hclass : n.kind = .java .classDeclaration
  · have hclass' := h.kind.trans hclass
    exact ⟨by rw [found_class hclass, found_class hclass'], by rw [after_class hclass, after_class hclass']⟩
  by_cases hmethod : n.kind = .java .methodDeclaration
  · have hmethod' := h.kind.trans hmethod
    have hsame : ∀ scope : Scope, scope.method? n' = scope.method? n :=
      fun scope => funext (h.method scope)
    exact ⟨by rw [found_method hmethod, found_method hmethod', hsame],
      by rw [after_method hmethod, after_method hmethod']⟩
  by_cases hcall : n.kind = .java .methodInvocation
  · have hcall' := h.kind.trans hcall
    refine ⟨by rw [found_call hcall, found_call hcall', h.resolveCall hbrace], ?_⟩
    rw [leave_visited hcall, leave_visited hcall']
    rfl
  refine ⟨by rw [found_other hclass hmethod hcall, found_other (by rwa [h.kind]) (by rwa [h.kind])
    (by rwa [h.kind])], ?_⟩
  have hvariables : declareVariables symbols n' cursor context =
      declareVariables symbols n cursor context := by
    rw [declareVariables, declareVariables, h.declaredVariables context.scope fun e e' hkind he =>
      typeOf_child hbrace hkind he context]
  have hresource : declareResource n' context = declareResource n context := by
    rw [declareResource, declareResource, h.firstChild_name rfl, h.firstIdentifier]
  simp only [Hooks.visitor, attributionHooks, h.kind]
  split
  · rename_i kind hkind
    split_ifs
    · split
      · exact absurd hkind hclass
      · exact absurd hkind hmethod
      · rfl
      · rfl
      · rfl
      · rfl
      · exact hvariables
      · exact hresource
      · exact absurd hkind hcall
      · rfl
    · rfl
  · rfl

end

end Codemod.Java
