import Codemod.Text.Slice
import Mathlib.Data.List.Infix

/-!
Texts cut by offsets. An offset at which a text can be cut is the size of what stands in front of
it, and there the byte ahead is that of the next character as far as ASCII goes. The bytes inside a
character are never in ASCII, so a scan that stops only at bytes in ASCII steps over whole
characters.
-/

namespace Codemod.Text

/-! ### Cuts -/

theorem size_toList (s : String) : size s.toList = s.utf8ByteSize := by
  have hsize : ∀ cs : List Char, size cs = (String.ofList cs).utf8ByteSize := by
    intro cs
    induction cs with
    | nil => rfl
    | cons c cs ih =>
        rw [size_cons, ih, String.ofList_cons, String.utf8ByteSize_append,
          String.utf8ByteSize_singleton]
  rw [hsize, String.ofList_toList]

theorem cut?_cons (c : Char) (rest : List Char) (offset : Nat) :
    cut? (c.utf8Size + offset) (c :: rest) =
      (cut? offset rest).map fun (front, behind) => (c :: front, behind) := by
  obtain ⟨size, hsize⟩ := Nat.exists_eq_add_of_lt c.utf8Size_pos
  have hsucc : c.utf8Size + offset = (size + offset) + 1 := by omega
  rw [hsucc, cut?, if_pos (by omega), show size + offset + 1 - c.utf8Size = offset by omega]

theorem cut?_eq_some_iff {offset : Nat} {cs front behind : List Char} :
    cut? offset cs = some (front, behind) ↔ cs = front ++ behind ∧ size front = offset := by
  constructor
  · intro h
    fun_induction cut? offset cs generalizing front behind with
    | case1 cs =>
        cases h
        exact ⟨rfl, rfl⟩
    | case2 => cases h
    | case3 offset c rest hfits ih =>
        obtain ⟨⟨front', behind'⟩, hrest, hfront⟩ := Option.map_eq_some_iff.1 h
        cases hfront
        obtain ⟨rfl, hsize⟩ := ih hrest
        refine ⟨rfl, ?_⟩
        rw [size_cons, hsize]
        omega
    | case4 => cases h
  · rintro ⟨rfl, rfl⟩
    induction front with
    | nil => cases behind <;> rfl
    | cons c front ih => rw [List.cons_append, size_cons, cut?_cons, ih]; rfl

/-- The offset lies between two characters of the text, or at one of its ends. -/
def Boundary (cs : List Char) (offset : Nat) : Prop :=
  ∃ front behind, cs = front ++ behind ∧ size front = offset

theorem upTo?_append (front behind : List Char) :
    upTo? (front ++ behind) (size front) = some front := by
  rw [upTo?, cut?_eq_some_iff.2 ⟨rfl, rfl⟩]
  rfl

theorem from?_append (front behind : List Char) :
    from? (front ++ behind) (size front) = some behind := by
  rw [from?, cut?_eq_some_iff.2 ⟨rfl, rfl⟩]
  rfl

theorem slice?_eq_some_iff {cs part : List Char} {start stop : Nat} :
    slice? cs start stop = some part ↔
      ∃ front behind, cs = front ++ (part ++ behind) ∧ size front = start ∧
        size (front ++ part) = stop := by
  simp only [slice?, upTo?, from?, Option.bind_eq_bind, Option.bind_eq_some_iff,
    Option.map_eq_some_iff, Prod.exists, cut?_eq_some_iff]
  constructor
  · rintro ⟨_, ⟨_, behind, ⟨rfl, hstop⟩, rfl⟩, front, _, ⟨rfl, hstart⟩, rfl⟩
    exact ⟨front, behind, List.append_assoc .., hstart, hstop⟩
  · rintro ⟨front, behind, rfl, hstart, hstop⟩
    exact ⟨front ++ part, ⟨_, behind, ⟨(List.append_assoc ..).symm, hstop⟩, rfl⟩, front, _,
      ⟨rfl, hstart⟩, rfl⟩

theorem slice?_append (front part behind : List Char) :
    slice? (front ++ (part ++ behind)) (size front) (size (front ++ part)) = some part :=
  slice?_eq_some_iff.2 ⟨front, behind, rfl, rfl, rfl⟩

theorem eq_nil_of_size {cs : List Char} (h : size cs = 0) : cs = [] := by
  cases cs with
  | nil => rfl
  | cons c rest =>
      have hpos := c.utf8Size_pos
      rw [size_cons] at h
      omega

theorem isSome_slice?_iff {cs : List Char} {start stop : Nat} :
    (slice? cs start stop).isSome = true ↔ Boundary cs start ∧ Boundary cs stop ∧ start ≤ stop := by
  simp only [Option.isSome_iff_exists, slice?_eq_some_iff]
  constructor
  · rintro ⟨part, front, behind, rfl, rfl, rfl⟩
    refine ⟨⟨front, _, rfl, rfl⟩, ⟨front ++ part, behind, (List.append_assoc ..).symm, rfl⟩, ?_⟩
    rw [size_append]
    exact Nat.le_add_right ..
  · rintro ⟨⟨front, behind, rfl, rfl⟩, ⟨front', behind', heq, rfl⟩, hle⟩
    rcases List.append_eq_append_iff.1 heq with ⟨part, rfl, rfl⟩ | ⟨part, rfl, rfl⟩
    · exact ⟨part, front, behind', rfl, rfl, rfl⟩
    · -- The second end would be in front of the first one.
      have hnil : part = [] := eq_nil_of_size (by rw [size_append] at hle; omega)
      subst hnil
      exact ⟨[], front', behind, by simp, by simp, by simp⟩

/-! ### Bytes -/

theorem bytes_append (cs ds : List Char) : bytes (cs ++ ds) = bytes cs ++ bytes ds :=
  List.flatMap_append

theorem byte?_append (front cs : List Char) (offset : Nat) :
    byte? (front ++ cs) (size front + offset) = byte? cs offset := by
  rw [byte?, bytes_append, ← length_bytes, List.getElem?_append_right (Nat.le_add_right ..),
    Nat.add_sub_cancel_left, byte?]

theorem byte?_at (front cs : List Char) : byte? (front ++ cs) (size front) = byte? cs 0 :=
  byte?_append front cs 0

theorem byte?_end (cs : List Char) : byte? cs (size cs) = none := by
  have hbyte := byte?_at cs []
  rwa [List.append_nil] at hbyte

/-- The character is outside of ASCII. -/
def Wide (c : Char) : Prop :=
  128 ≤ c.toNat

instance (c : Char) : Decidable (Wide c) :=
  inferInstanceAs (Decidable (128 ≤ c.toNat))

theorem wide_of_mem {c : Char} {b : UInt8} (hc : 1 < c.utf8Size)
    (hb : b ∈ String.utf8EncodeChar c) : Wide (Char.ofUInt8 b) := by
  have hlarge : ¬ c.val.toNat ≤ 127 := by
    intro hsmall
    have hsize := Char.utf8Size_eq_one_iff.2 (UInt32.le_iff_toNat_le.2 hsmall)
    omega
  show 128 ≤ b.toNat
  unfold String.utf8EncodeChar at hb
  simp only [hlarge, if_false] at hb
  split_ifs at hb <;> simp only [List.mem_cons, List.not_mem_nil, or_false] at hb <;>
    rcases hb with rfl | rfl | rfl | rfl <;> simp only [UInt8.toNat_ofNat'] <;> omega

theorem not_wide_of_size {c : Char} (h : c.utf8Size = 1) : ¬ Wide c := by
  have hsmall := UInt32.le_iff_toNat_le.1 (Char.utf8Size_eq_one_iff.1 h)
  show ¬ 128 ≤ c.val.toNat
  have hlimit : (127 : UInt32).toNat = 127 := rfl
  omega

theorem wide_of_size {c : Char} (h : c.utf8Size ≠ 1) : Wide c := by
  rw [Ne, Char.utf8Size_eq_one_iff, UInt32.le_iff_toNat_le] at h
  show 128 ≤ c.val.toNat
  have hlimit : (127 : UInt32).toNat = 127 := rfl
  omega

theorem byte?_ascii {c : Char} (h : c.utf8Size = 1) (rest : List Char) :
    byte? (c :: rest) 0 = some c := by
  have hsmall := UInt32.le_iff_toNat_le.1 (Char.utf8Size_eq_one_iff.1 h)
  rw [byte?, bytes, List.flatMap_cons, String.utf8EncodeChar_eq_singleton h]
  refine congrArg some (Char.ext (UInt32.toNat_inj.1 ?_))
  show c.val.toNat % 256 = c.val.toNat
  have hlimit : (127 : UInt32).toNat = 127 := rfl
  omega

/-- All bytes of a character outside of ASCII are none of ASCII. -/
theorem byte?_wide {c : Char} (h : c.utf8Size ≠ 1) (rest : List Char) {offset : Nat}
    (hoffset : offset < c.utf8Size) : ∃ b, byte? (c :: rest) offset = some b ∧ Wide b := by
  have hlength : offset < (String.utf8EncodeChar c).length := by
    rwa [String.length_utf8EncodeChar]
  have hsize := c.utf8Size_pos
  refine ⟨_, ?_, wide_of_mem (by omega) (List.getElem_mem hlength)⟩
  rw [byte?, bytes, List.flatMap_cons, List.getElem?_append_left hlength,
    List.getElem?_eq_getElem hlength]
  rfl

/-- The byte ahead is the next character, or neither is in ASCII. -/
theorem byte?_head (c : Char) (rest : List Char) :
    ∃ b, byte? (c :: rest) 0 = some b ∧ (b = c ∨ Wide b ∧ Wide c) := by
  by_cases h : c.utf8Size = 1
  · exact ⟨c, byte?_ascii h rest, .inl rfl⟩
  · obtain ⟨b, hb, hwide⟩ := byte?_wide h rest c.utf8Size_pos
    exact ⟨b, hb, .inr ⟨hwide, wide_of_size h⟩⟩

/-- So it is with the byte behind and the last character passed. -/
theorem byte?_last (front : List Char) (d : Char) (cs : List Char) :
    ∃ b, byte? (front ++ d :: cs) (size (front ++ [d]) - 1) = some b ∧
      (b = d ∨ Wide b ∧ Wide d) := by
  have hpos := d.utf8Size_pos
  have hplace : size (front ++ [d]) - 1 = size front + (d.utf8Size - 1) := by
    rw [size_append, size_cons, size_nil]
    omega
  rw [hplace, byte?_append]
  by_cases h : d.utf8Size = 1
  · rw [h]
    exact ⟨d, byte?_ascii h cs, .inl rfl⟩
  · obtain ⟨b, hb, hwide⟩ := byte?_wide h cs (Nat.sub_lt hpos Nat.one_pos)
    exact ⟨b, hb, .inr ⟨hwide, wide_of_size h⟩⟩

/-- The test passes only in ASCII. -/
def InAscii (p : Char → Bool) : Prop :=
  ∀ c, Wide c → p c = false

theorem inAscii_eq {a : Char} (ha : ¬ Wide a) : InAscii fun c => c = a :=
  fun _ hc => decide_eq_false fun heq => ha (heq ▸ hc)

theorem InAscii.or {p q : Char → Bool} (hp : InAscii p) (hq : InAscii q) :
    InAscii fun c => p c || q c :=
  fun c hc => Bool.or_eq_false_iff.2 ⟨hp c hc, hq c hc⟩

theorem InAscii.size {p : Char → Bool} (hp : InAscii p) {c : Char} (h : p c = true) :
    c.utf8Size = 1 := by
  by_contra hsize
  rw [hp c (wide_of_size hsize)] at h
  cases h

theorem InAscii.head {p : Char → Bool} (hp : InAscii p) {b c : Char}
    (h : b = c ∨ Wide b ∧ Wide c) : p b = p c := by
  obtain rfl | ⟨hb, hc⟩ := h
  · rfl
  · rw [hp b hb, hp c hc]

theorem head_eq_iff {a b c : Char} (ha : ¬ Wide a) (h : b = c ∨ Wide b ∧ Wide c) :
    b = a ↔ c = a := by
  simpa using (inAscii_eq ha).head h

theorem any_byte {p : Char → Bool} (hp : InAscii p) (cs : List Char) :
    (byte? cs 0).any p = cs.head?.any p := by
  cases cs with
  | nil => rfl
  | cons c rest =>
      obtain ⟨b, hb, hhead⟩ := byte?_head c rest
      rw [hb]
      exact hp.head hhead

theorem all_byte {p : Char → Bool} (hp : InAscii p) (cs : List Char) :
    (byte? cs 0).all p = cs.head?.all p := by
  cases cs with
  | nil => rfl
  | cons c rest =>
      obtain ⟨b, hb, hhead⟩ := byte?_head c rest
      rw [hb]
      exact hp.head hhead

theorem byte_eq_some_iff {c : Char} (hc : ¬ Wide c) (cs : List Char) :
    byte? cs 0 = some c ↔ cs.head? = some c := by
  have hsome : ∀ o : Option Char, o.any (fun d => d = c) = true ↔ o = some c := by
    intro o
    cases o <;> simp
  rw [← hsome, any_byte (inAscii_eq hc), hsome]

/-! ### Searches -/

theorem seek_stop {stops : Nat → Option Bool} {limit offset : Nat}
    (h : stops offset = some true) : seek limit stops offset = some offset := by
  rw [seek, h]
  rfl

section
variable {stops : Nat → Option Bool} {text front : List Char}

theorem seek_step {offset : Nat} (hoffset : offset < size text) (h : stops offset = some false) :
    seek (size text) stops offset = seek (size text) stops (offset + 1) := by
  rw [seek, h]
  exact if_pos hoffset

theorem seek_ascii {c : Char} {rest : List Char} (htext : text = front ++ c :: rest)
    (hc : c.utf8Size = 1) (h : stops (size front) = some false) :
    seek (size text) stops (size front) = seek (size text) stops (size (front ++ [c])) := by
  have hinside : size front < size text := by
    rw [htext, size_append, size_cons]
    omega
  rw [seek_step hinside h, size_append, size_cons, hc, size_nil]

theorem seek_char {c : Char} {rest : List Char} (htext : text = front ++ c :: rest)
    (hwide : ∀ offset b, byte? text offset = some b → Wide b → stops offset = some false)
    (h : stops (size front) = some false) :
    seek (size text) stops (size front) = seek (size text) stops (size (front ++ [c])) := by
  by_cases hsize : c.utf8Size = 1
  · exact seek_ascii htext hsize h
  · have hsteps : ∀ n, n ≤ c.utf8Size →
        seek (size text) stops (size front) = seek (size text) stops (size front + n) := by
      intro n hn
      induction n with
      | zero => rfl
      | succ n ih =>
          obtain ⟨b, hb, hbwide⟩ := byte?_wide hsize rest (Nat.lt_of_succ_le hn)
          rw [← byte?_append front, ← htext] at hb
          rw [ih (Nat.le_of_succ_le hn)]
          exact seek_step (lt_size_of_byte? hb) (hwide _ b hb hbwide)
    rw [hsteps _ le_rfl, size_append, size_cons, size_nil, Nat.add_zero]

end

/-- A scan that stops just where a run of characters halts, and never inside a character of the run,
comes to the end of the run. Whether the run halts hangs on what of it was passed, the character and
what stands behind. -/
theorem seek_run {stops : Nat → Option Bool} {text before : List Char}
    {run : List Char → List Char → List Char} {halts : List Char → Char → List Char → Bool}
    (hnil : ∀ passed, run passed [] = [])
    (hcons : ∀ passed c rest, run passed (c :: rest) =
      if halts passed c rest then [] else c :: run (passed ++ [c]) rest)
    (hend : stops (size text) = some true)
    (hstops : ∀ passed c rest, text = before ++ (passed ++ c :: rest) →
      stops (size (before ++ passed)) = some (halts passed c rest))
    (hwide : ∀ passed c rest, halts passed c rest = false → c.utf8Size ≠ 1 →
      ∀ offset b, byte? text offset = some b → Wide b → stops offset = some false)
    (passed cs : List Char) (htext : text = before ++ (passed ++ cs)) :
    seek (size text) stops (size (before ++ passed)) =
      some (size (before ++ (passed ++ run passed cs))) := by
  induction cs generalizing passed with
  | nil =>
      rw [List.append_nil] at htext
      rw [hnil, List.append_nil, ← htext]
      exact seek_stop hend
  | cons c rest ih =>
      have hstop := hstops passed c rest htext
      rw [hcons]
      cases hhalts : halts passed c rest with
      | true =>
          rw [hhalts] at hstop
          rw [if_pos rfl, List.append_nil]
          exact seek_stop hstop
      | false =>
          rw [hhalts] at hstop
          have hahead : text = before ++ passed ++ c :: rest := by rw [htext, List.append_assoc]
          have hnext : seek (size text) stops (size (before ++ passed)) =
              seek (size text) stops (size (before ++ (passed ++ [c]))) := by
            rw [← List.append_assoc]
            by_cases hsize : c.utf8Size = 1
            · exact seek_ascii hahead hsize hstop
            · exact seek_char hahead (hwide passed c rest hhalts hsize) hstop
          rw [hnext, ih (passed ++ [c]) (by rw [htext, List.append_assoc]; rfl), if_neg (by simp),
            List.append_assoc]
          rfl

theorem find?_head (p : Char → Bool) (cs : List Char) :
    (find? (fun cs => cs.head?.any p) cs).getD (size cs) = size (cs.takeWhile (!p ·)) := by
  induction cs with
  | nil => rfl
  | cons c rest ih =>
      rw [find?, List.takeWhile_cons]
      cases hc : p c with
      | true => simp [hc, size_nil]
      | false =>
          simp only [List.head?_cons, Option.any_some, hc, Bool.not_false, if_true, size_cons, ← ih]
          cases find? (fun cs => cs.head?.any p) rest <;> rfl

/-! ### Work on bytes -/

section
variable {ε α β γ δ : Type} {place : ε → Nat} {cs : List Char} {R : α → β → Prop} {S : γ → δ → Prop}

/-- The work on the bytes comes to an end without a wrong cut: to a result that is related to that
of the other computation, or to the same error, whose place is one at which the text can be cut. -/
inductive Retraces (place : ε → Nat) (cs : List Char) (R : α → β → Prop) :
    Checked ε α → Except ε β → Prop where
  | ok {a : α} {b : β} (h : R a b) : Retraces place cs R (pure a) (.ok b)
  | error {e : ε} (h : Boundary cs (place e)) : Retraces place cs R (throw e) (.error e)

theorem Retraces.bind {x : Checked ε α} {y : Except ε β} {k : α → Checked ε γ} {l : β → Except ε δ}
    (h : Retraces place cs R x y)
    (hk : ∀ a b, R a b → y = .ok b → Retraces place cs S (k a) (l b)) :
    Retraces place cs S (x >>= k) (y >>= l) := by
  cases h with
  | ok h => exact hk _ _ h rfl
  | error h => exact .error h

theorem Retraces.run_eq {x : Checked ε α} {y : Except ε α} (h : Retraces place cs Eq x y) :
    x.run = some y := by
  cases h with
  | ok h => rw [h]; rfl
  | error h => rfl

theorem Retraces.boundary {x : Checked ε α} {y : Except ε β} {e : ε} (h : Retraces place cs R x y)
    (he : y = .error e) : Boundary cs (place e) := by
  cases h with
  | ok h => cases he
  | error h =>
      cases he
      exact h

theorem lift_bind {o : Option α} {a : α} (h : o = some a) (k : α → Checked ε β) :
    ((liftM o : Checked ε α) >>= k) = k a := by
  rw [h]
  rfl

end

end Codemod.Text
