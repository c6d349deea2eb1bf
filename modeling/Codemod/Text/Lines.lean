/-!
The lines of a text, and those of the trivia in front of a token. A line feed, a carriage return and
the two together end a line and belong to it, so that the lines together are the text.
-/

namespace Codemod.Text

/-- The lines of the characters with their ends. The last line may have none. -/
def lines : List Char → List (List Char)
  | [] => []
  | '\r' :: '\n' :: rest => ['\r', '\n'] :: lines rest
  | c :: rest =>
      if c = '\n' || c = '\r' then [c] :: lines rest
      else
        match lines rest with
        | [] => [[c]]
        | line :: others => (c :: line) :: others

/-- The line ends with a line feed or a carriage return. -/
def isTerminated (line : List Char) : Bool :=
  line.getLast? == some '\n' || line.getLast? == some '\r'

/-- The characters after the last line feed. -/
def lastLine (cs : List Char) : List Char :=
  (cs.reverse.takeWhile (· != '\n')).reverse

/-- The text after the last line feed: the indentation of what follows. -/
def indent (trivia : String) : String :=
  String.ofList (lastLine trivia.toList)

/-- The sign of a comment of either language stands somewhere. -/
def opensComment : List Char → Bool
  | '#' :: _ | '/' :: '/' :: _ | '/' :: '*' :: _ => true
  | _ :: rest => opensComment rest
  | [] => false

/-- The trivia holds the sign of a comment. -/
def holdsComment (trivia : String) : Bool :=
  opensComment trivia.toList

end Codemod.Text
