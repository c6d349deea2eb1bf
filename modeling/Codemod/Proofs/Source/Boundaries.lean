import Codemod.Proofs.Java.ErrorPlaces
import Codemod.Proofs.Java.IndexedTokens
import Codemod.Proofs.Yaml.Indexed

/-!
Texts are cut between characters only. The readers that go by the offsets of bytes look at single
bytes and step over them, behind an escape over two at once. Still each offset at which they cut a
text is one between two characters, each byte that they ask for is there, and they come to an end.
The places that their errors name lie between characters too.
-/

namespace Codemod.Source

open Codemod.Text

theorem boundary_iff_isValid {source : String} {offset : Nat} :
    Boundary source.toList offset ↔ (⟨offset⟩ : String.Pos.Raw).IsValid source := by
  rw [String.Pos.Raw.isValid_iff_exists_append]
  constructor
  · rintro ⟨front, behind, htext, rfl⟩
    refine ⟨String.ofList front, String.ofList behind, ?_, ?_⟩
    · rw [← String.ofList_append, ← htext, String.ofList_toList]
    · rw [String.rawEndPos, ← size_toList, String.toList_ofList]
  · rintro ⟨front, behind, rfl, hoffset⟩
    refine ⟨front.toList, behind.toList, String.toList_append, ?_⟩
    rw [size_toList, ← String.byteIdx_rawEndPos, ← hoffset]

theorem boundary_of_parseUnit {source : String} {e : Java.ParseError}
    (h : Java.parseUnit source = .error e) : Boundary source.toList e.offset := by
  rcases bind_eq_error.1 h with htokens | ⟨tokens, htokens, hparse⟩
  · exact (Java.Indexed.retraces_tokenize source).boundary htokens
  · obtain ⟨l, hl, hoffset⟩ := Java.offset_of_parseTokens hparse
    exact hoffset ▸ Java.boundary_of_tokenize htokens hl

/-- Documents and the tokens of units are read by the offsets of bytes without a cut inside a
character or behind the end. A slice gives something just where it goes from one valid position to
another one not in front of it, and a reader that comes to any other slice gives nothing. The
readers always give something, and that is what is read by characters. An error of a document or of
a unit names an offset in the text, between two characters. -/
theorem reading_keeps_boundaries (source : String) :
    (∀ start stop, (slice? source.toList start stop).isSome = true ↔
        (⟨start⟩ : String.Pos.Raw).IsValid source ∧ (⟨stop⟩ : String.Pos.Raw).IsValid source ∧
          start ≤ stop) ∧
      (Yaml.Indexed.parseDocument source).run = some (Yaml.parseDocument source) ∧
      (Java.Indexed.tokenize source).run = some (Java.tokenize source) ∧
      (∀ e, Yaml.parseDocument source = .error e →
        e.offset ≤ source.utf8ByteSize ∧ (⟨e.offset⟩ : String.Pos.Raw).IsValid source) ∧
      ∀ e, Java.parseUnit source = .error e →
        e.offset ≤ source.utf8ByteSize ∧ (⟨e.offset⟩ : String.Pos.Raw).IsValid source := by
  have hplace : ∀ {offset}, Boundary source.toList offset →
      offset ≤ source.utf8ByteSize ∧ (⟨offset⟩ : String.Pos.Raw).IsValid source := by
    intro offset h
    have hvalid := boundary_iff_isValid.1 h
    exact ⟨hvalid.le_utf8ByteSize, hvalid⟩
  refine ⟨fun start stop => ?_, (Yaml.Indexed.retraces_parseDocument source).run_eq,
    (Java.Indexed.retraces_tokenize source).run_eq,
    fun e he => hplace ((Yaml.Indexed.retraces_parseDocument source).boundary he),
    fun e he => hplace (boundary_of_parseUnit he)⟩
  rw [isSome_slice?_iff, boundary_iff_isValid, boundary_iff_isValid]

/-- Both scans step over characters of two bytes, one of them behind a backslash, and fail behind
them. -/
theorem reading_keeps_boundaries_escaped :
    Yaml.parseDocument "import é: \"ü\\é\" x" = .error (.expected .endOfLine 1 19) ∧
      Java.parseUnit "import é: \"ü\\é\" x" = .error (.expected (.sign ";") (some ":") 9) ∧
      (Yaml.Indexed.parseDocument "import é: \"ü\\é\" x").run =
        some (.error (.expected .endOfLine 1 19)) ∧
      (⟨19⟩ : String.Pos.Raw).IsValid "import é: \"ü\\é\" x" ∧
      (⟨9⟩ : String.Pos.Raw).IsValid "import é: \"ü\\é\" x" := by
  have hyaml : Yaml.parseDocument "import é: \"ü\\é\" x" = .error (.expected .endOfLine 1 19) :=
    eq_error_of_any (by decide +kernel)
  have hjava : Java.parseUnit "import é: \"ü\\é\" x" =
      .error (.expected (.sign ";") (some ":") 9) := eq_error_of_any (by decide +kernel)
  obtain ⟨-, hrun, -, hdocument, hunit⟩ := reading_keeps_boundaries "import é: \"ü\\é\" x"
  exact ⟨hyaml, hjava, hrun.trans (congrArg some hyaml), (hdocument _ hyaml).2, (hunit _ hjava).2⟩

end Codemod.Source
