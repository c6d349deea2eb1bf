import Codemod.Proofs.Java.Scanning

/-!
The comments in the trivia of Java, read one character after another. The trivia that a scan splits
off in front of a token is what is read to its end outside a comment.
-/

namespace Codemod.Java

/-- Where a reader of trivia stands: outside a comment, behind a slash that opens one, or in a
comment of either kind, with whether an asterisk that can close it came last. -/
inductive CommentState where
  | outside
  | slash
  | line
  | block (asterisk : Bool)
deriving DecidableEq, Repr

/-- What was read of trivia: the comments that are closed, and what is there of an open one. -/
structure CommentReader where
  state : CommentState := .outside
  comment : List Char := []
  closed : List (List Char) := []
deriving DecidableEq, Repr

namespace CommentReader

/-- The reader behind one more character; none if it is no trivia. -/
def read (r : CommentReader) (c : Char) : Option CommentReader :=
  match r.state with
  | .outside =>
      if c = '/' then some { r with state := .slash, comment := ['/'] }
      else if Text.isBlank c then some r
      else none
  | .slash =>
      if c = '/' then some { r with state := .line, comment := r.comment ++ [c] }
      else if c = '*' then some { r with state := .block false, comment := r.comment ++ [c] }
      else none
  | .line =>
      if c = '\n' then some { closed := r.closed ++ [r.comment] }
      else some { r with comment := r.comment ++ [c] }
  | .block asterisk =>
      if asterisk && c = '/' then some { closed := r.closed ++ [r.comment ++ [c]] }
      else some { r with state := .block (c = '*'), comment := r.comment ++ [c] }

/-- The comments that were read, an open one at the end included. -/
def comments (r : CommentReader) : List (List Char) :=
  r.closed ++ if r.state = .outside then [] else [r.comment]

end CommentReader

/-- The comments in trivia, each with its text. A comment up to the end of a line is without the
line feed. -/
def comments (trivia : List Char) : List (List Char) :=
  ((trivia.foldlM CommentReader.read {}).map CommentReader.comments).getD []

/-- The comments between the tokens of a text. -/
def Tokens.comments (tokens : Tokens) : List (List Char) :=
  tokens.toList.flatMap fun lexed => Java.comments lexed.token.lead.toList

/-- The characters are trivia in front of something, with these comments. -/
def Trivia (cs : List Char) (comments : List (List Char)) : Prop :=
  cs.foldlM CommentReader.read {} = some { closed := comments }

namespace CommentReader

/-- The reader with other comments in front of those that are closed. -/
def behind (front : List (List Char)) (r : CommentReader) : CommentReader :=
  { r with closed := front ++ r.closed }

theorem read_behind (front : List (List Char)) (r : CommentReader) (c : Char) :
    (r.behind front).read c = (r.read c).map (behind front) := by
  obtain ⟨state, comment, closed⟩ := r
  cases state <;> simp only [read, behind] <;> split_ifs <;> simp [behind]

theorem foldlM_behind (front : List (List Char)) (r : CommentReader) (cs : List Char) :
    cs.foldlM read (r.behind front) = (cs.foldlM read r).map (behind front) := by
  induction cs generalizing r with
  | nil => rfl
  | cons c cs ih =>
      rw [List.foldlM_cons, List.foldlM_cons, read_behind]
      cases r.read c with
      | none => rfl
      | some r' => exact ih r'

theorem state_of_blanks {r r' : CommentReader} {blanks : List Char}
    (hblank : ∀ c ∈ blanks, Text.isBlank c = true) (hline : '\n' ∉ blanks)
    (h : blanks.foldlM read r = some r') (hstate : r'.state = .outside) : r = r' := by
  induction blanks generalizing r with
  | nil => exact Option.some.inj h
  | cons c blanks ih =>
      obtain ⟨hc, hblank⟩ := List.forall_mem_cons.1 hblank
      rw [List.mem_cons, not_or] at hline
      obtain ⟨r₁, hread, h⟩ := Option.bind_eq_some_iff.1 h
      obtain rfl := ih hblank hline.2 h
      have hslash : c ≠ '/' := by
        rintro rfl
        revert hc
        decide
      have hasterisk : c ≠ '*' := by
        rintro rfl
        revert hc
        decide
      obtain ⟨state, comment, closed⟩ := r
      cases state <;> simp only [read, if_neg hasterisk, if_neg (Ne.symm hline.1), hc,
        hslash, if_true, decide_false, Bool.and_false, Bool.false_eq_true, if_false] at hread
      · exact Option.some.inj hread
      · cases hread
      · obtain rfl := Option.some.inj hread
        cases hstate
      · obtain rfl := Option.some.inj hread
        cases hstate

theorem line_of_state {r r' : CommentReader} {cs : List Char} (h : cs.foldlM read r = some r')
    (hstate : r'.state = .line) :
    (r.state = .line ∧ '\n' ∉ cs) ∨
      (r.state = .slash ∧ ∃ behind, cs = '/' :: behind ∧ '\n' ∉ behind) ∨
        ∃ front behind, cs = front ++ '/' :: '/' :: behind ∧ '\n' ∉ behind := by
  induction cs generalizing r with
  | nil =>
      obtain rfl := Option.some.inj h
      exact .inl ⟨hstate, by simp⟩
  | cons c cs ih =>
      obtain ⟨r₁, hread, h⟩ := Option.bind_eq_some_iff.1 h
      obtain ⟨hline, hbreak⟩ | ⟨hslash, behind, rfl, hbreak⟩ | ⟨front, behind, rfl, hbreak⟩ := ih h
      · obtain ⟨state, comment, closed⟩ := r
        cases state with
        | line =>
            have hc : c ≠ '\n' := by
              rintro rfl
              obtain rfl := Option.some.inj hread
              cases hline
            exact .inl ⟨rfl, by simp [hbreak, Ne.symm hc]⟩
        | slash =>
            have hc : c = '/' := by
              by_contra hc
              simp only [read, if_neg hc] at hread
              split_ifs at hread
              obtain rfl := Option.some.inj hread
              cases hline
            exact .inr (.inl ⟨rfl, cs, by rw [hc], hbreak⟩)
        | outside =>
            simp only [read] at hread
            split_ifs at hread <;> obtain rfl := Option.some.inj hread <;> cases hline
        | block asterisk =>
            simp only [read] at hread
            split_ifs at hread <;> obtain rfl := Option.some.inj hread <;> cases hline
      · obtain ⟨state, comment, closed⟩ := r
        have hc : c = '/' := by
          by_contra hc
          cases state <;> simp only [read, if_neg hc] at hread <;> split_ifs at hread <;>
            obtain rfl := Option.some.inj hread <;> cases hslash
        exact .inr (.inr ⟨[], behind, by rw [hc]; rfl, hbreak⟩)
      · exact .inr (.inr ⟨c :: front, behind, rfl, hbreak⟩)

end CommentReader

namespace Trivia

variable {cs ds : List Char} {ks ls : List (List Char)}

theorem lineFeed : Trivia ['\n'] [] :=
  rfl

theorem of_lineFeed (h : Trivia ('\n' :: cs) ks) : Trivia cs ks :=
  h

theorem comments (h : Trivia cs ks) : Java.comments cs = ks := by
  rw [Java.comments, h]
  simp [CommentReader.comments]

theorem append (h : Trivia cs ks) (h' : Trivia ds ls) : Trivia (cs ++ ds) (ks ++ ls) := by
  have hbehind := CommentReader.foldlM_behind ks {} ds
  rw [h'] at hbehind
  rw [Trivia, List.foldlM_append, h]
  simpa [CommentReader.behind] using hbehind

theorem blanks {blanks : List Char} (h : ∀ c ∈ blanks, Text.isBlank c = true) :
    Trivia blanks [] := by
  induction blanks with
  | nil => rfl
  | cons c blanks ih =>
      obtain ⟨hc, h⟩ := List.forall_mem_cons.1 h
      have hslash : c ≠ '/' := by
        rintro rfl
        revert hc
        decide
      have hread : CommentReader.read {} c = some {} := by simp [CommentReader.read, hslash, hc]
      rw [Trivia, List.foldlM_cons, hread]
      exact ih h

theorem of_blanks {blanks : List Char} (hblank : ∀ c ∈ blanks, Text.isBlank c = true)
    (h : Trivia (blanks ++ cs) ks) : Trivia cs ks := by
  rw [Trivia, List.foldlM_append, Trivia.blanks hblank] at h
  exact h

theorem without_blanks {blanks : List Char} (h : Trivia (cs ++ blanks) ks)
    (hblank : ∀ c ∈ blanks, Text.isBlank c = true) (hline : '\n' ∉ blanks) : Trivia cs ks := by
  rw [Trivia, List.foldlM_append] at h
  obtain ⟨r, hr, hrest⟩ := Option.bind_eq_some_iff.1 h
  rw [Trivia, hr, CommentReader.state_of_blanks hblank hline hrest rfl]

theorem of_break (h : Trivia (cs ++ ['\n']) ks) :
    Trivia cs ks ∨ ∃ r, cs.foldlM CommentReader.read {} = some r ∧ r.state = .line := by
  rw [Trivia, List.foldlM_append] at h
  obtain ⟨r, hr, hbreak⟩ := Option.bind_eq_some_iff.1 h
  obtain ⟨r₁, hread, hend⟩ := Option.bind_eq_some_iff.1 hbreak
  obtain rfl := Option.some.inj hend
  cases hstate : r.state with
  | outside =>
      rw [CommentReader.read, hstate] at hread
      obtain rfl := Option.some.inj hread
      exact .inl hr
  | slash =>
      rw [CommentReader.read, hstate] at hread
      cases hread
  | line => exact .inr ⟨r, hr, hstate⟩
  | block asterisk =>
      rw [CommentReader.read, hstate] at hread
      cases asterisk <;> cases hread

end Trivia

/-! ### Trivia that a scan splits off -/

open Scan

/-- The scan stands where the reader does. -/
def CommentState.Meets : CommentState → TriviaState → Prop
  | .outside, .outside => True
  | .line, .lineComment => True
  | .block asterisk, .blockComment _ asterisk' => asterisk = asterisk'
  | _, _ => False

theorem read_of_trivia {state : TriviaState} {offset : Nat} {cs taken left : List Char}
    (h : trivia state offset cs = .ok (taken, left)) (hleft : left ≠ []) {r : CommentReader}
    (hr : r.state.Meets state) (hcomment : r.state = .outside → r.comment = []) :
    ∃ ks, taken.foldlM CommentReader.read r = some { closed := ks } := by
  obtain ⟨place, comment, closed⟩ := r
  fun_induction trivia state offset cs generalizing taken left place comment closed with
  | case1 => cases h
  | case2 =>
      cases h
      exact absurd rfl hleft
  | case3 offset rest ih =>
      obtain ⟨⟨taken', left'⟩, hrest, hok⟩ := bind_eq_ok.1 h
      cases hok
      cases place <;> cases hr
      exact ih hrest hleft .line ['/', '/'] closed trivial (by rintro ⟨⟩)
  | case4 offset rest ih =>
      obtain ⟨⟨taken', left'⟩, hrest, hok⟩ := bind_eq_ok.1 h
      cases hok
      cases place <;> cases hr
      exact ih hrest hleft (.block false) ['/', '*'] closed rfl (by rintro ⟨⟩)
  | case5 =>
      cases h
      cases place <;> cases hr
      exact ⟨closed, by rw [show comment = [] from hcomment rfl]; rfl⟩
  | case6 offset c rest hc hblank ih =>
      obtain ⟨⟨taken', left'⟩, hrest, hok⟩ := bind_eq_ok.1 h
      cases hok
      cases place <;> cases hr
      obtain ⟨ks, hks⟩ := ih hrest hleft .outside comment closed trivial hcomment
      refine ⟨ks, ?_⟩
      rw [List.foldlM_cons, CommentReader.read, if_neg hc, if_pos hblank]
      exact hks
  | case7 =>
      cases h
      cases place <;> cases hr
      exact ⟨closed, by rw [show comment = [] from hcomment rfl]; rfl⟩
  | case8 offset c rest next =>
      rename_i ih
      obtain ⟨⟨taken', left'⟩, hrest, hok⟩ := bind_eq_ok.1 h
      cases hok
      cases place <;> cases hr
      rw [List.foldlM_cons]
      simp only [CommentReader.read, next] at hrest ih ⊢
      split_ifs at hrest ih ⊢ with hbreak
      · exact ih hrest hleft .outside [] _ trivial fun _ => rfl
      · exact ih hrest hleft .line _ _ trivial (by rintro ⟨⟩)
  | case9 offset c rest start asterisk next =>
      rename_i ih
      obtain ⟨⟨taken', left'⟩, hrest, hok⟩ := bind_eq_ok.1 h
      cases hok
      cases place <;> cases hr
      rw [List.foldlM_cons]
      simp only [CommentReader.read, next] at hrest ih ⊢
      split_ifs at hrest ih ⊢ with hcloses
      · exact ih hrest hleft .outside [] _ trivial fun _ => rfl
      · exact ih hrest hleft (.block _) _ _ rfl (by rintro ⟨⟩)

theorem trivia_of_skips {lead rest : List Char} (h : Skips lead rest) (hrest : rest ≠ []) :
    ∃ ks, Trivia lead ks :=
  read_of_trivia (h 0) hrest (r := {}) trivial fun _ => rfl

theorem trivia_of_read {limit : Nat} {state : TriviaState} {lead rest : List Char}
    {r r' : CommentReader} (hlimit : lead.length < limit)
    (h : lead.foldlM CommentReader.read r = some r') (hr : r.state.Meets state)
    (hr' : r'.state = .outside) (hrest : Skips [] rest) (offset : Nat) :
    trivia state offset (lead ++ rest) = .ok (lead, rest) := by
  -- A slash and the sign behind it are read one by one, but split off together.
  induction limit generalizing lead r state offset with
  | zero => exact absurd hlimit (Nat.not_lt_zero _)
  | succ limit ih =>
  obtain ⟨place, comment, closed⟩ := r
  cases lead with
  | nil =>
      obtain rfl := Option.some.inj h
      cases hr'
      cases state <;> cases hr
      exact hrest offset
  | cons c cs =>
      obtain ⟨r₁, hread, h⟩ := Option.bind_eq_some_iff.1 h
      have hshorter : cs.length < limit := by simpa using hlimit
      rw [List.cons_append]
      cases place with
      | slash => cases hr
      | outside =>
          cases state <;> cases hr
          simp only [CommentReader.read] at hread
          split_ifs at hread with hslash hblank <;> obtain rfl := Option.some.inj hread
          · subst hslash
            cases cs with
            | nil =>
                obtain rfl := Option.some.inj h
                cases hr'
            | cons d cs =>
                obtain ⟨r₂, hread, h⟩ := Option.bind_eq_some_iff.1 h
                have hshorter : cs.length < limit := by
                  rw [List.length_cons] at hshorter
                  omega
                simp only [CommentReader.read] at hread
                rw [List.cons_append, trivia.eq_def]
                split_ifs at hread with hline hblock <;> obtain rfl := Option.some.inj hread
                · have hcomment := @ih .lineComment cs _ hshorter h trivial (offset + 2)
                  subst hline
                  simp only [if_true, hcomment]
                  rfl
                · have hcomment := @ih (.blockComment offset false) cs _ hshorter h rfl (offset + 2)
                  subst hblock
                  simp only [if_true, hcomment]
                  rfl
          · rw [trivia_of_ne_slash hslash, if_pos hblank, @ih .outside cs _ hshorter h trivial]
            rfl
      | line =>
          cases state <;> cases hr
          rw [trivia]
          simp only [CommentReader.read] at hread
          split_ifs at hread ⊢ <;> obtain rfl := Option.some.inj hread
          · rw [@ih .outside cs _ hshorter h trivial]
            rfl
          · rw [@ih .lineComment cs _ hshorter h trivial]
            rfl
      | block asterisk =>
          cases state <;> cases hr
          rw [trivia]
          simp only [CommentReader.read] at hread
          split_ifs at hread ⊢ <;> obtain rfl := Option.some.inj hread
          · rw [@ih .outside cs _ hshorter h trivial]
            rfl
          · rw [@ih (.blockComment _ _) cs _ hshorter h rfl]
            rfl

theorem skips_of_closed {lead rest : List Char} {ks : List (List Char)} (h : Trivia lead ks)
    (hrest : Skips [] rest) : Skips lead rest :=
  trivia_of_read (Nat.lt_succ_self _) h trivial rfl hrest

end Codemod.Java
