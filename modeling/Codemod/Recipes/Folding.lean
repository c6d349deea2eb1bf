import Codemod.Recipe.Basic
import Codemod.Text.Lines
import Codemod.Yaml.Entry
import Codemod.Yaml.Hooks

/-!
The recipe that folds an entry whose value is a mapping of one entry into one dotted key. What
was nested in the inner entry moves to the left with it.
-/

namespace Codemod.Recipes.Folding

open Codemod.Tree

/-- The characters with up to `shift` spaces less at the start of each line but the first;
`pending` of them may still go at this place. -/
def dedentChars (shift pending : Nat) : List Char → List Char
  | [] => []
  | c :: rest =>
      if c = '\n' then c :: dedentChars shift shift rest
      else if c = ' ' then
        match pending with
        | 0 => c :: dedentChars shift 0 rest
        | pending + 1 => dedentChars shift pending rest
      else c :: dedentChars shift 0 rest

/-- The trivia with up to `shift` spaces less at the start of each line but the first. -/
def dedentText (shift : Nat) (trivia : String) : String :=
  String.ofList (dedentChars shift 0 trivia.toList)

mutual

/-- The node with less indentation in all trivia. -/
def dedent (shift : Nat) : Node → Node
  | ⟨kind, lead, children, markers, type?⟩ =>
      ⟨kind, dedentText shift lead, dedentList shift children, markers, type?⟩

/-- The child with less indentation in all trivia. -/
def dedentElement (shift : Nat) : Element → Element
  | .node n => .node (dedent shift n)
  | .token t => .token { t with lead := dedentText shift t.lead }

/-- Some children with less indentation in all trivia. -/
def dedentList (shift : Nat) : List Element → List Element
  | [] => []
  | e :: es => dedentElement shift e :: dedentList shift es

end

/-- The only entry of a mapping. -/
def onlyChild? (mapping : Node) : Option Node :=
  match mapping.childNodes with
  | [inner] => some inner
  | _ => none

/-- The bytes of indentation in front of an entry. -/
def indentation (entry : Node) : Nat :=
  (Text.indent entry.lead).utf8ByteSize

/-- The value of the inner entry in the place of the outer one's. -/
def liftedValue (entry inner value : Node) : Node :=
  if value.kind = .yaml .mapping then dedent (indentation inner - indentation entry) value
  else value

/-- The entry with its inner entry's key in its own; none if the two cannot be joined. Quoted
keys stay apart, and so does an inner key under a comment. -/
def fold? (entry : Node) : Option Node := do
  let key ← Yaml.entryKey? entry
  let mapping ← (Yaml.entryValue? entry).filter fun v => v.kind == .yaml .mapping
  let inner ← onlyChild? mapping
  let innerKey ← Yaml.entryKey? inner
  if Yaml.isQuoted key.text || Yaml.isQuoted innerKey.text || Text.holdsComment inner.lead then
    none
  else
    let colon ← inner.tokens.find? fun t => t.text == ":"
    let value ← Yaml.entryValue? inner
    some { entry with
      children :=
        [ .token ⟨.text, "", key.text ++ "." ++ innerKey.text⟩, .token colon,
          .node (liftedValue entry inner value) ] }

/-- The visitor that folds entries, the innermost first. -/
def visitor : Visitor Unit :=
  Yaml.Hooks.visitor { entry := fun n _ s => (fold? n, s) }

end Folding

/-- Folds single nested entries into dotted keys. -/
def coalesceProperties : Recipe where
  name := "CoalesceProperties"
  description := "Join single-entry nested mappings into dotted keys."
  pass? := some (Recipe.passOf Folding.visitor ())

end Codemod.Recipes
