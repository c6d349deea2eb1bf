import Codemod.Proofs.Recipes.Folding
import Codemod.Proofs.Yaml.JoinedKeys
import Codemod.Proofs.Yaml.KeyLines

/-!
Folding as a recursion over the tree: a node is first rebuilt from what is made of its children, and
then joined if it is an entry. This is the tree that the walk leaves, and it is laid out: what moves to
the left with an inner entry moves by as much as the columns of the two entries differ, so it stays
deeper than the outer one; and the joined key is a key again.
-/

namespace Codemod.Recipes.Folding

open Codemod.Tree Codemod.Yaml

/-! ### Folding from the leaves -/

mutual

/-- The node with the entries below it folded, the innermost first, and then itself. -/
def foldTree : Node → Node
  | ⟨kind, lead, children, markers, type?⟩ =>
      let v : Node := ⟨kind, lead, foldList children, markers, type?⟩
      if kind = .yaml .entry then (fold? v).getD v else v

/-- The child with the entries in it folded. -/
def foldElement : Element → Element
  | .node n => .node (foldTree n)
  | .token t => .token t

/-- Some children with the entries in them folded. -/
def foldList : List Element → List Element
  | [] => []
  | e :: es => foldElement e :: foldList es

end

theorem foldTree_entry {n : Node} (hkind : n.kind = .yaml .entry) :
    foldTree n =
      (fold? { n with children := foldList n.children }).getD
        { n with children := foldList n.children } := by
  obtain ⟨kind, lead, children, markers, type?⟩ := n
  rw [foldTree, if_pos hkind]

theorem foldTree_other {n : Node} (hkind : n.kind ≠ .yaml .entry) :
    foldTree n = { n with children := foldList n.children } := by
  obtain ⟨kind, lead, children, markers, type?⟩ := n
  rw [foldTree, if_neg hkind]

theorem left_foldTree (n : Node) (cursor : Cursor) :
    (visitor.leave { n with children := foldList n.children } cursor ()).1.getD
      { n with children := foldList n.children } = foldTree n := by
  by_cases hkind : n.kind = .yaml .entry
  · rw [foldTree_entry hkind, leave_entry cursor (n := { n with children := _ }) hkind]
  · rw [foldTree_other hkind, leave_other cursor (n := { n with children := _ }) hkind]
    rfl

/-- What is made of a well written node is related to it as the walk relates the two. -/
theorem coalesced_foldTree {n : Node} (h : WellWritten n) :
    Coalesced (.node n) (.node (foldTree n)) := by
  induction n using Node.induction_on with
  | step n ih =>
      have hlist : ∀ es : List Element, (∀ c, Element.node c ∈ es → Element.node c ∈ n.children) →
          ∃ changed, Swept Coalesces es () (foldList es) changed () := by
        intro es hes
        induction es with
        | nil => exact ⟨false, .nil⟩
        | cons e es ihes =>
            obtain ⟨others, hrest⟩ := ihes fun c hc => hes c (List.mem_cons_of_mem _ hc)
            cases e with
            | token t => exact ⟨others, .token hrest⟩
            | node c =>
                exact ⟨false || others, .node (fun hc => ih c (hes c List.mem_cons_self) hc) hrest⟩
      obtain ⟨changed, hswept⟩ := hlist n.children fun _ hc => hc
      have hleft := @leaves_coalesces n [] _ _ _ _ hswept h
      rwa [left_foldTree] at hleft

/-- The walk leaves the document with its entries folded. -/
theorem folded_eq {d : Node} (hkind : d.kind = .yaml .document) : folded d = foldTree d := by
  let R : VisitRelation Unit := fun n _ n' _ _ => n' = foldTree n
  have hlist : ∀ {es es' : List Element} {s s' : Unit} {changed : Bool},
      Swept R es s es' changed s' → es' = foldList es := by
    intro es es' s s' changed h
    induction h with
    | nil => rfl
    | token _ ih => rw [ih]; rfl
    | node hn _ ih => rw [ih, hn]; rfl
  have hleaves : visitor.Leaves R := by
    intro n cursor s s' es' changed hswept
    rw [hlist hswept]
    exact left_foldTree n cursor
  have haccepts : visitor.accepts d = true := by
    show (d.kind == .yaml .document) = true
    simp [hkind]
  exact visitor.walk_sweeps (fun _ _ _ => rfl) hleaves haccepts ()

/-! ### Trivia below a node -/

/-- The property holds of the trivia in front of each node in some children. -/
def Led (P : String → Prop) (es : List Element) : Prop :=
  ∀ m ∈ Node.preorderList es, P m.lead

section
variable {P : String → Prop}

theorem led_iff {es : List Element} :
    Led P es ↔ ∀ c, Element.node c ∈ es → P c.lead ∧ Led P c.children := by
  constructor
  · intro h c hc
    refine ⟨h c (mem_preorderList.2 ⟨c, hc, mem_preorder_self c⟩), fun m hm => ?_⟩
    exact h m (mem_preorderList.2 ⟨c, hc, mem_preorder.2 (.inr (mem_preorderList.1 hm))⟩)
  · intro h m hm
    obtain ⟨c, hc, hm⟩ := mem_preorderList.1 hm
    rcases mem_preorder.1 hm with rfl | hm
    · exact (h m hc).1
    · exact (h c hc).2 m (mem_preorderList.2 hm)

theorem led_cons {n : Node} {es : List Element} :
    Led P (.node n :: es) ↔ (P n.lead ∧ Led P n.children) ∧ Led P es := by
  rw [led_iff, @led_iff _ es]
  simp

variable (hdedent : ∀ shift lead, P lead → P (dedentText shift lead))
include hdedent

theorem led_dedent {shift : Nat} {n : Node} (h : P n.lead ∧ Led P n.children) :
    P (dedent shift n).lead ∧ Led P (dedent shift n).children := by
  induction n using Node.induction_on with
  | step n ih =>
      rw [lead_dedent, children_dedent, led_iff]
      refine ⟨hdedent shift _ h.1, fun c hc => ?_⟩
      obtain ⟨e, he, hce⟩ := List.mem_map.1 hc
      cases e with
      | token => cases hce
      | node c' =>
          cases hce
          exact ih c' he (led_iff.1 h.2 c' he)

theorem Joins.led {e e' : Node} (h : Joins e e') (he : Led P e.children) : Led P e'.children := by
  cases h with
  | @intro mapping inner value key colon innerKey innerColon sign hkind hes _ _ hinner _ hes' =>
      have hmapping := (led_iff.1 he mapping (by simp [hes])).2
      have hbelow := (led_iff.1 hmapping inner (by simp [hinner])).2
      have hvalue := led_iff.1 hbelow value (by simp [hes'])
      refine led_iff.2 fun c hc => ?_
      obtain rfl : c = liftedValue e inner value := by simpa using hc
      rcases liftedValue_cases e inner value with hsame | ⟨shift, hshift⟩
      · rwa [hsame]
      · rw [hshift]
        exact led_dedent hdedent hvalue

theorem Coalesced.led {n n' : Node} (h : Coalesced (.node n) (.node n')) (hn : Led P n.children) :
    Led P n'.children := by
  induction n using Node.induction_on generalizing n' with
  | step n ih =>
      have hchild : ∀ {c c'}, Element.node c ∈ n.children → Coalesced (.node c) (.node c') →
          P c'.lead ∧ Led P c'.children := by
        intro c c' hc hcoalesced
        obtain ⟨hlead, hbelow⟩ := led_iff.1 hn c hc
        obtain ⟨_, ⟨⟩, _, hsame, _⟩ := hcoalesced.node
        exact ⟨hsame ▸ hlead, ih c hc hcoalesced hbelow⟩
      have hvalue : ∀ {key colon : Token} {value value' : Node},
          n.children = [.token key, .token colon, .node value] →
            Coalesced (.node value) (.node value') →
              Led P [.token key, .token colon, .node value'] := by
        intro key colon value value' hes hcoalesced
        refine led_iff.2 fun c hc => ?_
        obtain rfl : c = value' := by simpa using hc
        exact hchild (by simp [hes]) hcoalesced
      cases h with
      | @group _ pairs _ hes h =>
          refine led_iff.2 fun c hc => ?_
          obtain ⟨⟨e, e'⟩, hp, rfl⟩ := List.mem_map.1 hc
          have hcoalesced := h _ hp
          cases e with
          | token t => cases hcoalesced.token_eq
          | node c' => exact hchild (by rw [hes]; exact List.mem_map_of_mem hp) hcoalesced
      | kept _ hes _ _ h => exact hvalue hes h
      | joined _ hes _ _ h hjoins => exact hjoins.led hdedent (hvalue hes h)

end

/-! ### Columns -/

theorem indentation_eq {front : Edge} {column : Nat} {e : Node}
    (h : LeadAt front column e.lead.toList) : indentation e = column := by
  rw [← h.column, margin, column_pass (not_mem_lastLine _)]
  exact (Nat.zero_add _).symm

theorem lastLine_of_lead {front : Edge} {column : Nat} {lead : List Char}
    (h : LeadAt front column lead) (hreturn : '\r' ∉ Text.lastLine lead) :
    Text.lastLine lead = List.replicate column ' ' := by
  have hline := not_mem_lastLine lead
  have hblank : ∀ c ∈ Text.lastLine lead, isSpace c = true := by
    intro c hc
    have hspace := space_of_closed (closed_lastLine h.closed) hline c hc
    have hbreak : isBreak c = false := by
      simp only [isBreak, Bool.or_eq_false_iff, decide_eq_false_iff_not]
      exact ⟨ne_of_mem_of_not_mem hc hline, ne_of_mem_of_not_mem hc hreturn⟩
    simpa [hbreak] using hspace
  obtain ⟨hspaces, htab⟩ := @flags_pass {} _ hline
  have hfree : '\t' ∉ Text.lastLine lead := by
    have hflags := h.tab
    rw [margin, hspaces, htab, List.all_eq_true.2 hblank] at hflags
    simpa using hflags
  have hall : Text.lastLine lead = List.replicate (Text.lastLine lead).length ' ' :=
    List.eq_replicate_iff.2 ⟨rfl, fun c hc => by
      have hspace := hblank c hc
      simp only [isSpace, Bool.or_eq_true, decide_eq_true_eq] at hspace
      exact hspace.resolve_right (ne_of_mem_of_not_mem hc hfree)⟩
  have hcolumn := h.column
  rw [margin, hall, column_spaces] at hcolumn
  rw [hall, ← hcolumn]
  simp

/-! ### Less indentation -/

section
variable (shift : Nat)

theorem dedentChars_kept {c : Char} {pending : Nat} (hbreak : c ≠ '\n') (h : c ≠ ' ' ∨ pending = 0)
    (cs : List Char) : dedentChars shift pending (c :: cs) = c :: dedentChars shift 0 cs := by
  rcases h with hspace | rfl
  · simp [dedentChars, hbreak, hspace]
  · simp [dedentChars, hbreak]

theorem dedentChars_break (pending : Nat) (front behind : List Char) :
    dedentChars shift pending (front ++ '\n' :: behind) =
      dedentChars shift pending front ++ '\n' :: dedentChars shift shift behind := by
  fun_induction dedentChars shift pending front with
  | case1 => simp [dedentChars]
  | case2 pending front ih => simp [dedentChars, ih]
  | case3 front hbreak ih =>
      rw [List.cons_append, dedentChars_kept shift hbreak (.inr rfl), ih, List.cons_append]
  | case4 front pending hbreak ih =>
      rw [List.cons_append, ← ih]
      simp [dedentChars]
  | case5 pending c front hbreak hspace ih =>
      rw [List.cons_append, dedentChars_kept shift hbreak (.inl hspace), ih, List.cons_append]

theorem dedentChars_line {cs : List Char} (h : '\n' ∉ cs) : dedentChars shift 0 cs = cs := by
  induction cs with
  | nil => rfl
  | cons c cs ih =>
      rw [List.mem_cons, not_or] at h
      rw [dedentChars_kept shift (Ne.symm h.1) (.inr rfl), ih h.2]

theorem dedentChars_spaces (pending count : Nat) :
    dedentChars shift pending (List.replicate count ' ') = List.replicate (count - pending) ' ' := by
  induction count generalizing pending with
  | zero => simp [dedentChars]
  | succ count ih =>
      cases pending with
      | zero => exact dedentChars_line shift (by simp)
      | succ pending => simpa [dedentChars, List.replicate_succ] using ih pending

theorem dedentText_line {cs : List Char} (h : '\n' ∉ cs) :
    dedentText shift (String.ofList cs) = String.ofList cs := by
  rw [dedentText, String.toList_ofList, dedentChars_line shift h]

theorem lastLine_dedentChars {lead : List Char} (h : '\n' ∈ lead) :
    Text.lastLine (dedentChars shift 0 lead) =
      dedentChars shift shift (Text.lastLine lead) := by
  obtain ⟨above, habove⟩ := exists_lastLine h
  have hline : '\n' ∉ dedentChars shift shift (Text.lastLine lead) := by
    rw [mem_dedentChars shift (by decide)]
    exact not_mem_lastLine lead
  conv_lhs => rw [habove]
  rw [dedentChars_break, lastLine_break, lastLine_of_not_mem hline]

end

/-- The last line of some trivia holds no carriage return. -/
def NoReturn (lead : String) : Prop :=
  '\r' ∉ Text.lastLine lead.toList

theorem noReturn_dedentText (shift : Nat) (lead : String) (h : NoReturn lead) :
    NoReturn (dedentText shift lead) := by
  rw [NoReturn, dedentText, String.toList_ofList]
  by_cases hbreak : '\n' ∈ lead.toList
  · rw [lastLine_dedentChars shift hbreak, mem_dedentChars shift (by decide)]
    exact h
  · rwa [dedentChars_line shift hbreak]

theorem leadAt_dedent {front : Edge} {column : Nat} {lead : List Char}
    (h : LeadAt front column lead) (hfront : front ≠ .start) (hreturn : '\r' ∉ Text.lastLine lead)
    (shift : Nat) : LeadAt front (column - shift) (dedentChars shift 0 lead) := by
  have hbreak := h.line hfront
  have hlast : Text.lastLine (dedentChars shift 0 lead) = List.replicate (column - shift) ' ' := by
    rw [lastLine_dedentChars shift hbreak, lastLine_of_lead h hreturn, dedentChars_spaces]
  refine ⟨?_, ?_, ?_, fun _ => (mem_dedentChars shift (by decide) 0 lead).2 hbreak, ?_⟩
  · rw [commentBehind_dedentChars]
    exact h.closed
  · rw [margin, hlast, column_spaces]
    exact Nat.zero_add _
  · rw [margin, hlast, (@flags_pass {} _ (by simp)).2]
    simp
  · intro hedge hsign
    refine h.apart hedge ?_
    cases lead with
    | nil => cases hsign
    | cons c cs =>
        by_cases hc : c = '\n'
        · simp [hc, dedentChars] at hsign
        · rwa [dedentChars_kept shift hc (.inr rfl), List.head?_cons] at hsign

theorem dedent_entryNode {gap : List Char} (hgap : '\n' ∉ gap) (shift : Nat) (lead raw : List Char)
    (value : Node) : dedent shift (entryNode lead raw gap value) =
      entryNode (dedentChars shift 0 lead) raw gap (dedent shift value) := by
  rw [dedent_eq]
  simp only [entryNode, List.map_cons, List.map_nil, dedentElement]
  rw [dedentText_line shift hgap, dedentText, String.toList_ofList]
  rfl

theorem dedent_mappingNode (shift : Nat) (es : List Element) :
    dedent shift (mappingNode es) = mappingNode (es.map (dedentElement shift)) := by
  rw [dedent_eq]
  rfl

theorem scalarLaid_dedent {key : List Char} {value : Node} {edge : Edge}
    (h : ScalarLaid key value edge) (shift : Nat) : dedent shift value = value := by
  have hscalar : ∀ {blanks raw : List Char}, '\n' ∉ blanks →
      dedent shift (scalarNode blanks raw) = scalarNode blanks raw := by
    intro blanks raw hblanks
    rw [dedent_eq]
    simp only [scalarNode, List.map_cons, List.map_nil, dedentElement]
    rw [dedentText_line shift hblanks]
    rfl
  cases h with
  | inLine hblanks _ _ => exact hscalar (not_mem_blanks hblanks)
  | missing => exact hscalar (by simp)

theorem laid_dedent {front last : Edge} {column : Nat} {es : List Element}
    (h : Laid front column es last) (hfront : front ≠ .start) (hled : Led NoReturn es) {shift : Nat}
    (hle : shift ≤ column) :
    Laid front (column - shift) (es.map (dedentElement shift)) last := by
  induction h with
  | nil => exact .nil
  | scalar hlead hkey hvalue _ ih =>
      obtain ⟨⟨hreturn, _⟩, hrest⟩ := led_cons.1 hled
      rw [List.map_cons, dedentElement, dedent_entryNode (not_mem_blanks hkey.blanks),
        scalarLaid_dedent hvalue]
      exact .scalar (leadAt_dedent hlead hfront (by simpa [NoReturn, entryNode] using hreturn) shift)
        hkey hvalue (ih hvalue.ne_start hrest hle)
  | @nested _ _ _ _ _ _ _ _ children es hlead hkey hdeeper hne hchildren _ ihchildren ih =>
      obtain ⟨⟨hreturn, hbelow⟩, hrest⟩ := led_cons.1 hled
      rw [List.map_cons, dedentElement, dedent_entryNode (not_mem_blanks hkey.blanks),
        dedent_mappingNode]
      have hchildrenLed := (led_iff.1 hbelow (mappingNode children) (by simp [entryNode])).2
      exact .nested (leadAt_dedent hlead hfront (by simpa [NoReturn, entryNode] using hreturn) shift)
        hkey (by omega) (by simpa using hne)
        (ihchildren (colonBehind_ne_start _) hchildrenLed (by omega))
        (ih (hchildren.ne_start (.inl hne)) hrest hle)

/-! ### One entry -/

/-- The only entry of the mapping that is the value of an entry. -/
def inner? (entry : Node) : Option Node :=
  (entryValue? entry).bind onlyChild?

/-- The inner key is a colon, which is taken for the one behind it, or the joined key begins as the
end of a document does. -/
def clashes (entry inner : Node) : Bool :=
  keyText inner == some ":" ||
    startsMarker "..." (((keyText entry).getD "").toList ++ '.' :: ((keyText inner).getD "").toList)

/-- If the entry is one to fold, its joined key is read again, and spaces alone stand in front of
what moves to the left. -/
def Fits (entry : Node) : Prop :=
  folds entry = true → ∀ inner ∈ inner? entry,
    clashes entry inner = false ∧ Led NoReturn inner.children

instance (entry : Node) : Decidable (Fits entry) :=
  inferInstanceAs (Decidable (folds entry = true → ∀ inner ∈ inner? entry,
    clashes entry inner = false ∧
      ∀ m ∈ Node.preorderList inner.children, '\r' ∉ Text.lastLine m.lead.toList))

section
variable {lead raw gap lead' raw' gap' : List Char} {value : Node}

theorem inner_entryNode (inner : Node) :
    inner? (entryNode lead raw gap (mappingNode [.node inner])) = some inner := by
  rw [inner?, @entryValue_entry (entryNode lead raw gap _) _ _ _ rfl rfl]
  rfl

theorem folds_entryNode :
    folds (entryNode lead raw gap (mappingNode [.node (entryNode lead' raw' gap' value)])) = true →
      isQuoted (String.ofList raw) = false ∧ isQuoted (String.ofList raw') = false ∧ '#' ∉ lead' := by
  intro h
  rw [@folds_entry (entryNode lead raw gap _) _ _ _ rfl rfl rfl] at h
  have honly : onlyChild? (mappingNode [.node (entryNode lead' raw' gap' value)]) =
      some (entryNode lead' raw' gap' value) := rfl
  rw [honly, Option.any_some, @hasPlainKey_entry (entryNode lead' raw' gap' value) _ _ _ rfl rfl rfl]
    at h
  simpa [mappingNode, entryNode, and_assoc] using h

theorem fold_entryNode (hlead : IsTrivia lead') (hcolon : raw' ≠ [':']) :
    let inner := entryNode lead' raw' gap' value
    let e := entryNode lead raw gap (mappingNode [.node inner])
    folds e = true →
      fold? e = some (entryNode lead (raw ++ '.' :: raw') gap' (liftedValue e inner value)) := by
  intro inner e hfolds
  obtain ⟨hplain, hplain', hsign⟩ := folds_entryNode hfolds
  have hcomment : Text.holdsComment inner.lead = false := by
    rw [Bool.eq_false_iff, ne_eq, holdsComment_iff (by simpa [inner, entryNode] using hlead)]
    simpa [inner, entryNode] using hsign
  have hkey : entryKey? e = some ⟨.text, "", String.ofList raw⟩ := rfl
  have hvalue : (entryValue? e).filter (fun v => v.kind == .yaml .mapping) =
      some (mappingNode [.node inner]) := rfl
  have hkey' : entryKey? inner = some ⟨.text, "", String.ofList raw'⟩ := rfl
  have honly : onlyChild? (mappingNode [.node inner]) = some inner := rfl
  have hvalue' : entryValue? inner = some value := rfl
  have hsign' : inner.tokens.find? (fun t => t.text == ":") =
      some ⟨.punct, String.ofList gap', ":"⟩ := by
    have hother : String.ofList raw' ≠ ":" := fun h => hcolon (by
      rw [← String.toList_ofList (l := raw'), h]
      rfl)
    simp [inner, entryNode, Node.tokens, Element.token?, hother]
  have hjoined : String.ofList raw ++ "." ++ String.ofList raw' = String.ofList (raw ++ '.' :: raw') :=
    String.toList_inj.1 (by simp)
  simp only [fold?, hkey, hvalue, honly, hkey', hplain, hplain', hcomment, hsign', hvalue', hjoined,
    Option.bind_eq_bind, Option.bind_some, Bool.or_self, Bool.false_eq_true, if_false]
  rfl

theorem keyForm_joined (hkey : KeyForm raw gap) (hkey' : KeyForm raw' gap') :
    let inner := entryNode lead' raw' gap' value
    let e := entryNode lead raw gap (mappingNode [.node inner])
    folds e = true → clashes e inner = false →
      KeyForm (raw ++ '.' :: raw') gap' ∧ raw' ≠ [':'] ∧
        startsQuote (raw ++ '.' :: raw') = startsQuote raw' := by
  intro inner e hfolds hclash
  obtain ⟨hplain, hplain', _⟩ := folds_entryNode hfolds
  rw [clashes, keyText_entryNode, keyText_entryNode, Bool.or_eq_false_iff] at hclash
  obtain ⟨hcolon, hmarker⟩ := hclash
  simp only [Option.getD_some, String.toList_ofList] at hmarker
  have hquote := hkey.plain hplain
  have hquote' := hkey'.plain hplain'
  refine ⟨keyForm_join hkey hkey' hquote hquote' hmarker, ?_, ?_⟩
  · rintro rfl
    cases hcolon
  · rw [startsQuote_append hkey.ne_nil, hquote, hquote']

theorem colonBehind_congr {key key' : List Char} (h : startsQuote key' = startsQuote key) :
    colonBehind key' = colonBehind key := by
  rw [colonBehind, h, colonBehind]

theorem scalarLaid_congr {key key' : List Char} {edge : Edge} (h : ScalarLaid key value edge)
    (hquote : startsQuote key' = startsQuote key) : ScalarLaid key' value edge := by
  cases h with
  | inLine hblanks hapart hraw => exact .inLine hblanks (hquote ▸ hapart) hraw
  | missing =>
      rw [← colonBehind_congr hquote]
      exact .missing

theorem laid_fold {front behind : Edge} {column below : Nat} {inner : Node}
    (hlead : LeadAt front column lead) (hkey : KeyForm raw gap) (hdeeper : column < below)
    (hinner : Laid (colonBehind raw) below [.node inner] behind) :
    let e := entryNode lead raw gap (mappingNode [.node inner])
    folds e = true → Fits e →
      ∃ e', fold? e = some e' ∧ e'.lead = e.lead ∧ EntryLaid column e' behind := by
  intro e hfolds hfits
  obtain ⟨hclash, hled⟩ := hfits hfolds inner (inner_entryNode inner)
  obtain ⟨behind', hlead', hentry, hnone⟩ := hinner.uncons
  cases hnone
  have htrivia : IsTrivia inner.lead.toList := by
    rw [IsTrivia, hlead'.closed]
    rfl
  have hshift : indentation inner - indentation e = below - column := by
    rw [indentation_eq hlead', indentation_eq (e := e) (by simpa [e, entryNode] using hlead)]
  cases hentry with
  | scalar hkey' hvalue =>
      obtain ⟨hjoined, hcolon, hquote⟩ := keyForm_joined hkey hkey' hfolds hclash
      refine ⟨_, fold_entryNode (by simpa [entryNode] using htrivia) hcolon hfolds, rfl, ?_⟩
      rw [liftedValue, if_neg (by simp [hvalue.kind])]
      exact .scalar hjoined (scalarLaid_congr hvalue hquote)
  | @nested _ deepest _ _ _ children hkey' hdeeper' hne hchildren =>
      obtain ⟨hjoined, hcolon, hquote⟩ := keyForm_joined hkey hkey' hfolds hclash
      refine ⟨_, fold_entryNode (by simpa [entryNode] using htrivia) hcolon hfolds, rfl, ?_⟩
      rw [liftedValue, if_pos (show (mappingNode children).kind = .yaml .mapping from rfl), hshift,
        dedent_mappingNode]
      have hbelow := (led_iff.1 hled (mappingNode children) (by simp [entryNode])).2
      refine .nested hjoined (show column < deepest - (below - column) by omega)
        (by simpa using hne) ?_
      rw [colonBehind_congr hquote]
      exact laid_dedent hchildren (colonBehind_ne_start _) hbelow (by omega)

end

end Codemod.Recipes.Folding
