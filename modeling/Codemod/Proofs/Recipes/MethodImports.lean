import Codemod.Proofs.Recipes.MethodCalls

/-!
What the recipe that renames methods makes of the static imports of a unit, and when a second
application finds another import to rename.
-/

namespace Codemod.Recipes.MethodName

open Codemod.Tree Codemod.Java

/-- A second application finds an import to rename: the pattern selects the new name as well, no
call needs the new name or is renamed through a static import, and an import of one member is
selected that no call needs. -/
structure Restless (r : Renaming) (unit : Node) : Prop where
  selectsNew : r.pattern.selectsName r.newName = true
  idle : ∀ m ∈ staticCalls unit, r.applies m = false
  unused : ∀ m ∈ staticCalls unit, m.name ≠ r.newName
  clause : ∃ n owner member, Element.node n ∈ unit.children ∧
    staticImportParts? n = some (owner, member) ∧ member ≠ "*" ∧
      r.selectsImport owner member = true ∧ ∀ m ∈ staticCalls unit, m.name ≠ member

theorem kind_of_parts {n : Node} {parts : String × String}
    (h : staticImportParts? n = some parts) : n.kind = .java .importClause := by
  rw [staticImportParts?] at h
  split_ifs at h with hstatic
  simp only [isStaticImport, Bool.and_eq_true, beq_iff_eq] at hstatic
  exact hstatic.1

/-- What holds at clauses and at dotted names holds everywhere in a clause. -/
theorem everywhere_clause {P : Node → Prop} {n : Node} (hshape : ClauseShaped n)
    (hkind : n.kind = .java .importClause) (hclause : ∀ m, m.kind = .java .importClause → P m)
    (hname : ∀ m, m.kind = .java .qualifiedName → P m) : n.Everywhere P := by
  obtain ⟨words, name, semicolon, hqualified, hparts, hchildren⟩ := hshape
  obtain ⟨ts, hts⟩ := tokens_of_shape hparts
  refine everywhere_iff.2 ⟨hclause n hkind, fun c hc => ?_⟩
  rw [hchildren] at hc
  have heq : c = name := by simpa using hc
  rw [heq]
  refine everywhere_iff.2 ⟨hname name hqualified, fun d hd => ?_⟩
  rw [hts] at hd
  simp at hd

namespace Renaming

variable {r : Renaming} {seen : Seen} {existing : List (String × String)}

theorem settled_clause {n : Node} (hshape : ClauseShaped n)
    (hkind : n.kind = .java .importClause) : n.Everywhere r.Settled := by
  refine everywhere_clause hshape hkind (fun m hm => ⟨fun h => ?_, fun h => ?_⟩)
    fun m hm => ⟨fun h => ?_, fun h => ?_⟩ <;> · rw [hm] at h; cases h

/-! ### One import -/

/-- An import of one static member stays where it is for a reason: a call keeps its name, or
neither a renamed call nor the pattern asks for another. -/
def Stays (r : Renaming) (seen : Seen) (e : Element) : Prop :=
  ∀ n owner member, e = .node n → staticImportParts? n = some (owner, member) → member ≠ "*" →
    member ∈ seen.kept ∨
      (r.renamedHere seen owner member = false ∧ r.selectsImport owner member = false)

/-- An import of one static member is followed or replaced by one of the new name for a reason:
a renamed call, or the pattern where no call keeps the name. -/
def Moves (r : Renaming) (seen : Seen) (e e' : Element) : Prop :=
  ∃ n n' owner member, e = .node n ∧ staticImportParts? n = some (owner, member) ∧ member ≠ "*" ∧
    e' = .node n' ∧ n'.kind = .java .importClause ∧ ClauseShaped n' ∧
      staticImportParts? n' = some (owner, r.newName) ∧
        (r.renamedHere seen owner member = true ∨
          (member ∉ seen.kept ∧ r.selectsImport owner member = true))

theorem withLead_clause {n : Node} (lead : String) {parts : String × String}
    (hkind : n.kind = .java .importClause) (hshape : ClauseShaped n)
    (hparts : staticImportParts? n = some parts) :
    ({ n with lead } : Node).kind = .java .importClause ∧ ClauseShaped { n with lead } ∧
      staticImportParts? { n with lead } = some parts :=
  ⟨hkind, hshape, hparts⟩

theorem mem_edit (hdot : '.' ∉ r.newName.toList) {e e' : Element}
    (hshape : ∀ n, e = .node n → n.kind = .java .importClause → ClauseShaped n)
    (h : e' ∈ (r.replaceChild seen existing e).getD [e]) :
    e' = e ∧ r.Stays seen e ∨ r.Moves seen e e' := by
  cases e with
  | token t =>
      refine .inl ⟨by simpa [replaceChild] using h, ?_⟩
      rintro n owner member ⟨⟩
  | node n =>
      rw [replaceChild] at h
      cases hparts : staticImportParts? n with
      | none =>
          rw [hparts] at h
          refine .inl ⟨by simpa using h, ?_⟩
          rintro _ owner member ⟨⟩ hparts'
          rw [hparts] at hparts'
          cases hparts'
      | some parts =>
          obtain ⟨owner, member⟩ := parts
          rw [hparts] at h
          simp only [beq_iff_eq] at h
          have hstays : (member ≠ "*" → member ∈ seen.kept ∨
              (r.renamedHere seen owner member = false ∧ r.selectsImport owner member = false)) →
              r.Stays seen (.node n) := by
            rintro hreason _ owner' member' ⟨⟩ hparts' hstar
            rw [hparts] at hparts'
            cases hparts'
            exact hreason hstar
          split_ifs at h with hstar
          · exact .inl ⟨by simpa using h, hstays fun hne => absurd hstar hne⟩
          · have hkind := kind_of_parts hparts
            obtain ⟨n', hn', hkind', hshape', hparts'⟩ :=
              withImportMember_of_parts (hshape n rfl hkind) hkind hparts hstar hdot
            rw [replaceImport, hn'] at h
            by_cases hused : member ∈ seen.kept
            · have hcontains : seen.kept.contains member = true := List.contains_iff_mem.2 hused
              simp only [hcontains, Bool.and_true, Bool.not_true, Bool.false_and,
                Bool.or_false] at h
              cases hrenamed : r.renamedHere seen owner member with
              | false =>
                  rw [hrenamed] at h
                  exact .inl ⟨by simpa using h, hstays fun _ => .inl hused⟩
              | true =>
                  rw [hrenamed] at h
                  simp only [if_true] at h
                  split_ifs at h
                  · exact .inl ⟨by simpa using h, hstays fun _ => .inl hused⟩
                  · simp only [Option.map_some, Option.getD_some, List.mem_cons,
                      List.not_mem_nil, or_false] at h
                    rcases h with rfl | rfl
                    · exact .inl ⟨rfl, hstays fun _ => .inl hused⟩
                    · obtain ⟨hk, hs, hp⟩ := withLead_clause
                        ("\n" ++ Text.indent n.lead) hkind' hshape' hparts'
                      exact .inr ⟨n, _, owner, member, rfl, hparts, hstar, rfl, hk, hs, hp,
                        .inl hrenamed⟩
            · have hcontains : seen.kept.contains member = false := by
                simpa using hused
              simp only [hcontains, Bool.and_false, Bool.not_false, Bool.true_and,
                Bool.false_eq_true, if_false] at h
              split_ifs at h with hmoves
              · simp only [Option.map_some, Option.getD_some, List.mem_singleton] at h
                cases h
                refine .inr ⟨n, n', owner, member, rfl, hparts, hstar, rfl, hkind', hshape',
                  hparts', ?_⟩
                rw [Bool.or_eq_true] at hmoves
                exact hmoves.imp_right fun hselects => ⟨hused, hselects⟩
              · rw [Bool.or_eq_true, not_or, Bool.not_eq_true, Bool.not_eq_true] at hmoves
                exact .inl ⟨by simpa using h, hstays fun _ => .inr hmoves⟩

theorem edit_isSome (hdot : '.' ∉ r.newName.toList) (hrenamed : seen.renamed = []) {n : Node}
    (hshape : n.kind = .java .importClause → ClauseShaped n) :
    (r.replaceChild seen existing (.node n)).isSome = true ↔
      ∃ owner member, staticImportParts? n = some (owner, member) ∧ member ≠ "*" ∧
        member ∉ seen.kept ∧ r.selectsImport owner member = true := by
  have hnone : ∀ owner member, r.renamedHere seen owner member = false := by
    intro owner member
    rw [renamedHere, hrenamed]
    rfl
  rw [replaceChild]
  cases hparts : staticImportParts? n with
  | none => simp
  | some parts =>
      obtain ⟨owner, member⟩ := parts
      have hkind := kind_of_parts hparts
      by_cases hstar : member = "*"
      · simp [hstar]
      · obtain ⟨n', hn', _⟩ :=
          withImportMember_of_parts (hshape hkind) hkind hparts hstar hdot
        simp only [beq_iff_eq, hstar, if_false, replaceImport, hnone, Bool.false_and,
          Bool.false_or, Bool.false_eq_true, hn', Option.map_some]
        by_cases hselects : (!seen.kept.contains member && r.selectsImport owner member) = true
        · rw [if_pos hselects]
          rw [Bool.and_eq_true, Bool.not_eq_true'] at hselects
          refine iff_of_true rfl ⟨owner, member, rfl, hstar, ?_, hselects.2⟩
          simpa using hselects.1
        · rw [if_neg hselects]
          refine iff_of_false (by simp) ?_
          rintro ⟨_, _, heq, _, hkept, hselected⟩
          cases heq
          exact hselects (by simp [hkept, hselected])

end Renaming

end Codemod.Recipes.MethodName
