import Lisp.World.Input

/-!
A tree of directories and files, in which paths are resolved step by step.
-/

namespace Lisp

inductive FileNode where
  | directory
  | file (content : Except FileFault String)

/-- Files and directories by the names on the way to them from one directory, the base,
which may be the root of all. -/
structure FileTree where
  files : List (List String × Except FileFault String) := []
  directories : List (List String) := [[]]
  isRoot : Bool := false

namespace FileTree

/-- A name that leads nowhere else. -/
def isIdle (part : String) : Bool :=
  part = "" || part = "."

/-- The place to which the parts of a path lead from another place. -/
def follow (place : List String) : List String → List String
  | [] => place
  | part :: rest =>
    if isIdle part then follow place rest
    else if part = ".." then follow place.dropLast rest
    else follow (place ++ [part]) rest

/-- Adds the directories on the way along a path, the last one included. -/
def addDirectory (tree : FileTree) (parts : List String) : FileTree :=
  let lengths := List.range (parts.length + 1)
  { tree with directories := tree.directories ++ lengths.map fun n => follow [] (parts.take n) }

/-- Adds a file, or a directory if the path ends with a slash. -/
def add (tree : FileTree) (path : String) (bytes : List UInt8) : FileTree :=
  let parts := path.splitOn "/"
  if path.endsWith "/" then tree.addDirectory parts
  else
    let tree := tree.addDirectory parts.dropLast
    { tree with files := (follow [] parts, fileText bytes) :: tree.files }

def node? (tree : FileTree) (place : List String) : Option FileNode :=
  if tree.directories.contains place then some .directory
  else (tree.files.lookup place).map .file

/-- Nothing is known of the directories around a base but that they are there. -/
def around (rest : List String) : Except FileFault FileNode :=
  if rest.all fun part => isIdle part || part = ".." then .ok .directory else .error .missing

/-- Goes on from a place along the rest of a path. The root is its own parent. -/
def walk (tree : FileTree) (place : List String) : List String → Except FileFault FileNode
  | [] =>
    match tree.node? place with
    | some node => .ok node
    | none => .error .missing
  | part :: rest =>
    match tree.node? place with
    | none => .error .missing
    | some (.file _) => .error .notDirectory
    | some .directory =>
      if isIdle part then tree.walk place rest
      else if part = ".." then
        if place.isEmpty && !tree.isRoot then around rest else tree.walk place.dropLast rest
      else tree.walk (place ++ [part]) rest

/-- The directories that every system has at its root. -/
def rootNames : List String :=
  ["bin", "boot", "dev", "etc", "home", "lib", "media", "mnt", "opt", "proc", "run", "sbin", "srv",
    "sys", "tmp", "usr", "var"]

/-- What is known of every system: its directories and the empty file. -/
def system : FileTree :=
  let root : FileTree := { isRoot := true, directories := [] :: rootNames.map ([·]) }
  root.add "dev/null" []

def find (tree : FileTree) (path : String) : Except FileFault FileNode :=
  if path = "" then .error .missing
  else (if path.startsWith "/" then system else tree).walk [] (path.splitOn "/")

/-- The text of the file at a path. -/
def read (tree : FileTree) (path : String) : Except FileFault String :=
  match tree.find path with
  | .error fault => .error fault
  | .ok .directory => .error .directory
  | .ok (.file content) => content

end FileTree

end Lisp
