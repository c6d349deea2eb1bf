import Codemod.Java.Unit
import Codemod.Proofs.Java.Relabelling
import Codemod.Proofs.Java.Splitting

/-!
Where a text is refused. A parser fails at the place of the token in front of it, and each part of
the grammar leaves tokens of those that it was given. So whatever holds of the places of all tokens
holds of the place of an error, which the ways to combine parsers hand on from the parts to the
whole.
-/

namespace Codemod.Java

open Codemod.Tree

/-- The places of the tokens have the property. -/
def Tokens.Within (P : Nat → Prop) (t : Tokens) : Prop :=
  ∀ l ∈ t.toList, P l.offset

theorem Tokens.Within.front {P : Nat → Prop} {t : Tokens} (h : t.Within P) : P t.front.offset := by
  obtain ⟨ahead, last⟩ := t
  cases ahead with
  | nil => exact h last (List.mem_singleton_self last)
  | cons l rest => exact h l List.mem_cons_self

namespace Parser

variable {α β : Type} {P : Nat → Prop}

/-- From tokens at places with the property the parser comes to such tokens, or to an error at such
a place. -/
class Placed (P : Nat → Prop) (p : Parser α) : Prop where
  ok : ∀ {t a u}, t.Within P → p t = .ok (a, u) → u.Within P
  error : ∀ {t e}, t.Within P → p t = .error e → P e.offset

instance placed_pure (a : α) : Placed P (pure a : Parser α) where
  ok ht h := (pure_run.1 h).2 ▸ ht
  error _ h := nomatch h

instance placed_get : Placed P (get : Parser Tokens) where
  ok ht h := by
    cases h
    exact ht
  error _ h := nomatch h

instance placed_bind (p : Parser α) (k : α → Parser β) [hp : Placed P p]
    [hk : ∀ a, Placed P (k a)] :
    Placed P (p >>= k) where
  ok ht h := by
    obtain ⟨a, u, hrun, h⟩ := bind_run.1 h
    exact (hk a).ok (hp.ok ht hrun) h
  error {t e} ht h := by
    cases hrun : p t with
    | error e' =>
        rw [bind_error hrun] at h
        cases h
        exact hp.error ht hrun
    | ok x =>
        obtain ⟨a, u⟩ := x
        rw [bind_ok hrun] at h
        exact (hk a).error (hp.ok ht hrun) h

instance placed_ite (x : Prop) [Decidable x] (p q : Parser α) [hp : Placed P p] [hq : Placed P q] :
    Placed P (if x then p else q) := by
  split_ifs
  · exact hp
  · exact hq

/-- A choice by itself, so that a row of them makes no long search. -/
instance (priority := high) placed_cond (x : Parser Bool) (p q : Parser α) [hx : Placed P x]
    [hp : Placed P p] [hq : Placed P q] : Placed P (do if ← x then p else q) :=
  placed_bind x _

instance placed_fail_stalled : Placed P (fail .stalled : Parser α) where
  ok _ h := absurd h fail_run
  error ht h := by
    cases h
    exact ht.front

instance placed_unsupported (construct : Construct) :
    Placed P (unsupported construct : Parser α) where
  ok _ h := absurd h fail_run
  error ht h := by
    cases h
    exact ht.front

instance placed_expected (wanted : Wanted) : Placed P (expected wanted : Parser α) where
  ok _ h := absurd h expected_run
  error ht h := by
    cases h
    exact ht.front

instance placed_test (p : Token → Bool) (n : Nat) : Placed P (test p n) := by
  unfold test
  infer_instance

instance placed_sees (text : String) (n : Nat) : Placed P (sees text n) := by
  unfold sees
  infer_instance

instance placed_takeIf (p : Token → Bool) (wanted : Wanted) : Placed P (takeIf p wanted) where
  ok ht h := by
    obtain ⟨l, rest, ht', rfl, -, -⟩ := takeIf_run.1 h
    rw [ht'] at ht
    exact fun l' hl' => ht l' (List.mem_cons_of_mem l hl')
  error {t e} ht h := by
    obtain ⟨ahead, last⟩ := t
    cases ahead with
    | nil => exact (placed_expected wanted).error ht h
    | cons l rest =>
        rw [takeIf_cons] at h
        split_ifs at h
        exact (placed_expected wanted).error ht h

instance placed_take (text : String) : Placed P (take text) := by
  unfold take
  infer_instance

instance placed_takeIdentifier : Placed P takeIdentifier := by
  unfold takeIdentifier
  infer_instance

instance placed_foresee (probe : Parser Bool) : Placed P (foresee probe) where
  ok {t a u} ht h := by
    cases hrun : probe t <;> rw [foresee, hrun] at h <;> cases h <;> exact ht
  error {t e} _ h := by
    cases hrun : probe t <;> rw [foresee, hrun] at h <;> cases h

/-! ### Loops -/

section
variable (step : α → Parser (α × Bool)) [hstep : ∀ a, Placed P (step a)]

instance placed_repeatWithin (limit : Nat) (a : α) : Placed P (repeatWithin step limit a) := by
  induction limit generalizing a with
  | zero =>
      unfold repeatWithin
      infer_instance
  | succ limit ih =>
      unfold repeatWithin
      infer_instance

instance placed_iterate (a : α) : Placed P (iterate step a) := by
  unfold iterate
  infer_instance

end

section
variable (more : Parser Bool) (item : Parser (List Element)) [Placed P more] [Placed P item]

instance placed_manyStep (done : List Element) : Placed P (manyStep more item done) := by
  unfold manyStep
  infer_instance

instance placed_manyWhile : Placed P (manyWhile more item) := by
  unfold manyWhile
  infer_instance

instance placed_optional : Placed P (optional more item) := by
  unfold optional
  infer_instance

end

section
variable (delimiter : Delimiter) (stop : Parser Bool) (item : Parser Node) [Placed P stop]
  [Placed P item]

instance placed_itemStep (done : List (Node × Option Token)) :
    Placed P (itemStep delimiter stop item done) := by
  unfold itemStep
  infer_instance

instance placed_separated : Placed P (separated delimiter stop item) := by
  unfold separated
  infer_instance

end

/-! ### Parts -/

instance placed_one (p : Parser Node) [Placed P p] : Placed P (one p) := by
  unfold one
  infer_instance

instance placed_tok (p : Parser Token) [Placed P p] : Placed P (tok p) := by
  unfold tok
  infer_instance

instance placed_parts_nil : Placed P (parts []) := by
  unfold parts
  infer_instance

instance placed_parts_cons (p : Parser (List Element)) (ps : List (Parser (List Element)))
    [Placed P p] [Placed P (parts ps)] : Placed P (parts (p :: ps)) := by
  unfold parts
  infer_instance

instance placed_build (kind : Kind) (ps : List (Parser (List Element))) [Placed P (parts ps)] :
    Placed P (build kind ps) := by
  unfold build
  infer_instance

instance placed_commaList (item : Parser Node) [Placed P item] : Placed P (commaList item) := by
  unfold commaList
  infer_instance

instance placed_delimited (kind : Kind) (opening closing : String) (delimiter : Delimiter)
    (item : Parser Node) [Placed P item] :
    Placed P (delimited kind opening closing delimiter item) := by
  unfold delimited
  infer_instance

end Parser

namespace Grammar

open Codemod.Java.Parser

variable {P : Nat → Prop}

/-! ### The grammar without constructs inside -/

instance placed_dotThen (p : Token → Bool) : Placed P (dotThen p) := by
  unfold dotThen
  infer_instance

instance placed_furtherNames : Placed P furtherNames := by
  unfold furtherNames
  infer_instance

instance placed_qualifiedName (allowStar : Bool) : Placed P (qualifiedName allowStar) := by
  unfold qualifiedName
  infer_instance

instance placed_emptyBrackets : Placed P emptyBrackets := by
  unfold emptyBrackets
  infer_instance

instance placed_binaryOperator : Placed P binaryOperator := by
  unfold binaryOperator
  infer_instance

instance placed_modifierAhead : Placed P modifierAhead := by
  unfold modifierAhead
  infer_instance

instance placed_empty : Placed P empty := by
  unfold empty
  infer_instance

instance placed_jumpStatement : Placed P jumpStatement := by
  unfold jumpStatement
  infer_instance

instance placed_rejectStatement : Placed P rejectStatement := by
  unfold rejectStatement
  infer_instance

instance placed_labelAhead : Placed P labelAhead := by
  unfold labelAhead
  infer_instance

instance placed_callAhead : Placed P callAhead := by
  unfold callAhead
  infer_instance

instance placed_initializerAhead : Placed P initializerAhead := by
  unfold initializerAhead
  infer_instance

instance placed_packageClause : Placed P packageClause := by
  unfold packageClause
  infer_instance

instance placed_importClause : Placed P importClause := by
  unfold importClause
  infer_instance

instance placed_more : Placed P more := by
  unfold more
  infer_instance

instance placed_atEnd : Placed P atEnd := by
  unfold atEnd
  infer_instance

/-! ### The grammar around the constructs inside -/

section
variable (g : Grammar) [∀ s, Placed P (g s)]

instance placed_wildcard : Placed P (wildcard g) := by
  unfold wildcard
  infer_instance

instance placed_typeArguments : Placed P (typeArguments g) := by
  unfold typeArguments
  infer_instance

instance placed_elementType : Placed P (elementType g) := by
  unfold elementType
  infer_instance

instance placed_typeTree (dimensions : Bool) : Placed P (typeTree g dimensions) := by
  unfold typeTree
  infer_instance

instance placed_typeList (kind : Kind) (keyword : String) : Placed P (typeList g kind keyword) := by
  unfold typeList
  infer_instance

instance placed_typeParameter : Placed P (typeParameter g) := by
  unfold typeParameter
  infer_instance

instance placed_typeParameters : Placed P (typeParameters g) := by
  unfold typeParameters
  infer_instance

instance placed_arguments : Placed P (arguments g) := by
  unfold arguments
  infer_instance

instance placed_parenthesized : Placed P (parenthesized g) := by
  unfold parenthesized
  infer_instance

instance placed_arrayInit : Placed P (arrayInit g) := by
  unfold arrayInit
  infer_instance

instance placed_dimension (sized : Bool) : Placed P (dimension g sized) := by
  unfold dimension
  infer_instance

instance placed_classBody : Placed P (classBody g) := by
  unfold classBody
  infer_instance

instance placed_creation : Placed P (creation g) := by
  unfold creation
  infer_instance

instance placed_nameOrCall : Placed P (nameOrCall g) := by
  dsimp only [nameOrCall]
  infer_instance

instance placed_primary : Placed P (primary g) := by
  unfold primary
  infer_instance

instance placed_member (operand : Node) : Placed P (member g operand) := by
  dsimp only [member]
  infer_instance

instance placed_postfixStep (operand : Node) : Placed P (postfixStep g operand) := by
  dsimp only [postfixStep]
  infer_instance

instance placed_castAhead : Placed P (castAhead g) := by
  unfold castAhead
  infer_instance

instance placed_unary : Placed P (unary g) := by
  unfold unary
  infer_instance

instance placed_operatorStep (left : Node) : Placed P (operatorStep g left) := by
  dsimp only [operatorStep]
  infer_instance

instance placed_expression : Placed P (expression g) := by
  unfold expression
  infer_instance

instance placed_annotationUse : Placed P (annotationUse g) := by
  unfold annotationUse
  infer_instance

instance placed_modifiers : Placed P (modifiers g) := by
  unfold modifiers
  infer_instance

instance placed_namedVariable : Placed P (namedVariable g) := by
  unfold namedVariable
  infer_instance

instance placed_declarators : Placed P (declarators g) := by
  unfold declarators
  infer_instance

instance placed_declarationAhead : Placed P (declarationAhead g) := by
  unfold declarationAhead
  infer_instance

instance placed_variableAhead : Placed P (variableAhead g) := by
  unfold variableAhead
  infer_instance

instance placed_localVariable : Placed P (localVariable g) := by
  unfold localVariable
  infer_instance

instance placed_block : Placed P (block g) := by
  unfold block
  infer_instance

instance placed_resource : Placed P (resource g) := by
  unfold resource
  infer_instance

instance placed_catchClause : Placed P (catchClause g) := by
  unfold catchClause
  infer_instance

instance placed_finallyClause : Placed P (finallyClause g) := by
  unfold finallyClause
  infer_instance

instance placed_tryStatement : Placed P (tryStatement g) := by
  unfold tryStatement
  infer_instance

instance placed_valueStatement (kind : Kind) (keyword : String) :
    Placed P (valueStatement g kind keyword) := by
  unfold valueStatement
  infer_instance

instance placed_ifStatement : Placed P (ifStatement g) := by
  unfold ifStatement
  infer_instance

instance placed_whileStatement : Placed P (whileStatement g) := by
  unfold whileStatement
  infer_instance

instance placed_statement : Placed P (statement g) := by
  unfold statement
  infer_instance

instance placed_enumConstant : Placed P (enumConstant g) := by
  unfold enumConstant
  infer_instance

instance placed_enumConstants : Placed P (enumConstants g) := by
  unfold enumConstants
  infer_instance

instance placed_enumBody : Placed P (enumBody g) := by
  unfold enumBody
  infer_instance

instance placed_classDeclaration (mods : List Element) : Placed P (classDeclaration g mods) := by
  unfold classDeclaration
  infer_instance

instance placed_parameter : Placed P (parameter g) := by
  unfold parameter
  infer_instance

instance placed_methodFrom (start : List Element) : Placed P (methodFrom g start) := by
  unfold methodFrom
  infer_instance

instance placed_memberFrom (mods : List Element) : Placed P (memberFrom g mods) := by
  unfold memberFrom
  infer_instance

instance placed_typeMember : Placed P (typeMember g) := by
  unfold typeMember
  infer_instance

instance placed_topLevel : Placed P (topLevel g) := by
  unfold topLevel
  infer_instance

instance placed_compilationUnit : Placed P (compilationUnit g) := by
  unfold compilationUnit
  infer_instance

instance placed_production (s : Symbol) : Placed P (production g s) := by
  cases s <;> (unfold production; infer_instance)

end

instance placed_nested (depth : Nat) (s : Symbol) : Placed P (nested depth s) := by
  induction depth generalizing s with
  | zero =>
      unfold nested
      infer_instance
  | succ depth ih =>
      unfold nested
      infer_instance

end Grammar

theorem offset_of_parseTokens {tokens : Tokens} {e : ParseError}
    (h : parseTokens tokens = .error e) :
    ∃ l ∈ tokens.toList, l.offset = e.offset := by
  have hwithin : tokens.Within fun place => ∃ l ∈ tokens.toList, l.offset = place :=
    fun l hl => ⟨l, hl, rfl⟩
  rcases bind_eq_error.1 h with hrun | ⟨_, _, hok⟩
  · exact (Grammar.placed_compilationUnit (Grammar.nested _)).error hwithin hrun
  · cases hok

theorem boundary_of_tokenize {source : String} {tokens : Tokens} (h : tokenize source = .ok tokens)
    {l : Lexed} (hl : l ∈ tokens.toList) : Text.Boundary source.toList l.offset := by
  obtain ⟨front, behind, hsplit⟩ := List.append_of_mem hl
  have htext := printTokens_tokenize h
  have hoffset := Scan.offset_tokensWithin h hsplit
  rw [Nat.zero_add, ← Text.size_toList] at hoffset
  refine ⟨_, l.token.text.toList ++ (printTokens (behind.map Lexed.token)).toList, ?_, hoffset.symm⟩
  rw [← htext, hsplit]
  simp [printTokens_append, printTokens, Token.print]

end Codemod.Java
