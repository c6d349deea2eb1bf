import Codemod.Text.Split

/-!
Texts by the offsets of their bytes. An offset into a text is the byte length of what stands in
front of it. A byte can be looked at wherever it stands, while a text is cut between two characters
only: a cut inside a character or behind the end gives nothing.
-/

namespace Codemod.Text

/-- The number of bytes of some characters in UTF-8. -/
def size : List Char → Nat
  | [] => 0
  | c :: cs => c.utf8Size + size cs

@[simp]
theorem size_nil : size [] = 0 :=
  rfl

@[simp]
theorem size_cons (c : Char) (cs : List Char) : size (c :: cs) = c.utf8Size + size cs :=
  rfl

@[simp]
theorem size_append (cs ds : List Char) : size (cs ++ ds) = size cs + size ds := by
  induction cs with
  | nil => simp
  | cons c cs ih => simp [ih, Nat.add_assoc]

/-- The bytes of some characters in UTF-8. -/
def bytes (cs : List Char) : List UInt8 :=
  cs.flatMap String.utf8EncodeChar

theorem length_bytes (cs : List Char) : (bytes cs).length = size cs := by
  induction cs with
  | nil => rfl
  | cons c cs ih =>
      rw [bytes, List.flatMap_cons, List.length_append, String.length_utf8EncodeChar, ← bytes, ih,
        size_cons]

/-- The byte at an offset, as the character of its number. The bytes of a character outside of
ASCII are none of ASCII. -/
def byte? (cs : List Char) (offset : Nat) : Option Char :=
  (bytes cs)[offset]?.map Char.ofUInt8

/-- There are no bytes behind the end. -/
theorem lt_size_of_byte? {cs : List Char} {offset : Nat} {c : Char} (h : byte? cs offset = some c) :
    offset < size cs := by
  obtain ⟨b, hb, -⟩ := Option.map_eq_some_iff.1 h
  rw [← length_bytes]
  exact (List.getElem?_eq_some_iff.1 hb).1

/-- What stands in front of an offset and what stands behind it. -/
def cut? : Nat → List Char → Option (List Char × List Char)
  | 0, cs => some ([], cs)
  | _ + 1, [] => none
  | offset + 1, c :: rest =>
      if c.utf8Size ≤ offset + 1 then
        (cut? (offset + 1 - c.utf8Size) rest).map fun (front, behind) => (c :: front, behind)
      else none

/-- What stands in front of an offset. -/
def upTo? (cs : List Char) (stop : Nat) : Option (List Char) :=
  (cut? stop cs).map Prod.fst

/-- What stands behind an offset. -/
def from? (cs : List Char) (start : Nat) : Option (List Char) :=
  (cut? start cs).map Prod.snd

/-- What stands between two offsets, the second one not in front of the first one. -/
def slice? (cs : List Char) (start stop : Nat) : Option (List Char) := do
  from? (← upTo? cs stop) start

/-- Work on the bytes of a text that may fail with an error. It gives nothing at all where it cuts
the text at a wrong offset, asks for a byte behind the end, or needs more steps than there is
text. -/
abbrev Checked (ε : Type) := ExceptT ε Option

/-- The first offset from here on at which the scan stops, up to the limit. -/
def seek (limit : Nat) (stops : Nat → Option Bool) (offset : Nat) : Option Nat := do
  if ← stops offset then return offset
  else if offset < limit then seek limit stops (offset + 1)
  else none
termination_by limit - offset

/-- The offset of the first place with this ahead. -/
def find? (ahead : List Char → Bool) : List Char → Option Nat
  | [] => if ahead [] then some 0 else none
  | c :: rest =>
      if ahead (c :: rest) then some 0 else (find? ahead rest).map (c.utf8Size + ·)

/-- The offset of the last of these characters. -/
def findLast? (c : Char) (cs : List Char) : Option Nat :=
  (splitLast c cs).map fun (front, _) => size front

end Codemod.Text
