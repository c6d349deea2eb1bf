import Codemod.Source.Basic

/-!
Trees of files, and the source files that stand in one. A file is found by the names that lead
to it; the files below a directory come in the order of these names, name by name, so that the
content of a directory stands where the directory does.
-/

namespace Codemod.Source

/-- The names that lead from a directory to something in it. -/
abbrev Location := List String

/-- A file with its bytes, or a directory. -/
inductive FileNode where
  | file (content : ByteArray)
  | directory

/-- A tree of files: what stands at which location. Directories that lead to something need
not be listed. Of two nodes at one location the later one counts. -/
structure FileTree where
  nodes : List (Location × FileNode)

/-- Why source files could not be read. -/
inductive ReadError where
  /-- There is nothing to begin with. -/
  | missingRoot
  /-- The bytes of the file with this path are no text. -/
  | notText (path : String)
deriving DecidableEq, Repr

/-- A name stands in front of another one, or is the same: at the first character in which they
differ it has the smaller one. -/
def nameLe : List Char → List Char → Bool
  | [], _ => true
  | _ :: _, [] => false
  | c :: cs, d :: ds => if c = d then nameLe cs ds else decide (c.toNat < d.toNat)

/-- A location stands in front of another one, or is the same: at the first name in which they
differ it has the smaller one. -/
def Location.le : Location → Location → Bool
  | [], _ => true
  | _ :: _, [] => false
  | a :: as, b :: bs => if a = b then Location.le as bs else nameLe a.toList b.toList

/-- The location that the names between slashes spell. -/
def Location.ofPath (path : String) : Location :=
  ((Text.splitOn '/' path.toList).filter fun part => !leadsNowhere part).map String.ofList

/-- The names with slashes between them. -/
def Location.path (location : Location) : String :=
  String.intercalate "/" location

/-- The path to a location from a directory with a path of its own, which is kept as it is. A
slash stands between the two unless there is one. -/
def Location.pathFrom (directory : String) (location : Location) : String :=
  if location.isEmpty then directory
  else if directory.toList.getLast?.all (· = '/') then directory ++ location.path
  else directory ++ "/" ++ location.path

namespace FileTree

/-- What stands at a location. -/
def node? (tree : FileTree) (location : Location) : Option FileNode :=
  match tree.nodes.reverse.lookup location with
  | some node => some node
  | none =>
      if location.isEmpty || tree.nodes.any fun node => location.isPrefixOf node.1 then
        some .directory
      else none

/-- The location behind one more part of a path, which must begin in a directory. -/
def step? (tree : FileTree) (location : Location) (part : List Char) : Option Location :=
  match tree.node? location with
  | some .directory =>
      if leadsNowhere part then some location
      else if part = ['.', '.'] then
        if location.isEmpty then none else some location.dropLast
      else some (location ++ [String.ofList part])
  | _ => none

/-- The location that a path names, unless the path leaves the tree. -/
def resolve? (tree : FileTree) (path : String) : Option Location :=
  if path.startsWith "/" then none
  else (Text.splitOn '/' path.toList).foldlM tree.step? []

/-- The text of the file at a location. -/
def text? (tree : FileTree) (location : Location) : Option String :=
  match tree.node? location with
  | some (.file content) => String.fromUTF8? content
  | _ => none

/-- The locations of the files below a root, or at it, in their order. -/
def filesBelow (tree : FileTree) (root : Location) : List Location :=
  let isFile (node : Location × FileNode) : Bool :=
    match node.2 with
    | .file _ => root.isPrefixOf node.1
    | .directory => false
  (((tree.nodes.filter isFile).map Prod.fst).eraseDups).mergeSort Location.le

/-- The path and the text of a file below a root, which was given as a path. The path of the file
begins below the root; that of one without text begins with the root. -/
def readFile (tree : FileTree) (rootPath : String) (root location : Location) :
    Except ReadError (String × String) :=
  let below : Location := location.drop root.length
  match tree.text? location with
  | some text => .ok (below.path, text)
  | none => .error (.notText (shownPath (below.pathFrom rootPath)))

/-- The files of a language below a root, as one source set. -/
def readSources (tree : FileTree) (rootPath : String) (language : Language) :
    Except ReadError (List (Except ParseFailure SourceFile)) :=
  match tree.resolve? rootPath with
  | none => .error .missingRoot
  | some root =>
      if (tree.node? root).isNone then .error .missingRoot
      else
        let accepted := (tree.filesBelow root).filter fun location =>
          language.accepts location.path
        (accepted.mapM (tree.readFile rootPath root)).map language.parseAll

end FileTree

end Codemod.Source
