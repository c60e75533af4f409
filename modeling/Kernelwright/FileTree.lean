/-!
# Files by path

Text files as the program finds them by path. A file is known by the names on the way to it, from
the directory in which the program runs or, after an empty first name, from the root; each proper
beginning of these names is a directory. A path is walked name by name: an empty name and `.` stay
where they are, and `..` goes up. Between the directory of the program and the root there are
directories of which nothing more is known.
-/

namespace Kernelwright

/-- Why a file cannot be read. -/
inductive FileError where
  | missing
  | denied
  | notDirectory
  | isDirectory
  | nameTooLong
  | notText
  | other (text : String)
deriving DecidableEq, Repr

def FileError.message : FileError → String
  | missing => "No such file or directory (os error 2)"
  | denied => "Permission denied (os error 13)"
  | notDirectory => "Not a directory (os error 20)"
  | isDirectory => "Is a directory (os error 21)"
  | nameTooLong => "File name too long (os error 36)"
  | notText => "stream did not contain valid UTF-8"
  | other text => text

/-- Texts by the names on the way to them. -/
structure FileTree where
  files : List (List String × String)

namespace FileTree

/-- Where a walk stands. -/
inductive Place where
  | directory (path : List String)
  | file (text : String)
  | above
deriving DecidableEq, Repr

def maxName : Nat := 255

def maxPath : Nat := 4095

/-- The names of a path, in order. -/
def names (path : String) : List String := path.splitOn "/"

/-- What every system has: an empty file, and a directory, which is a path that ends in a slash. -/
def system : List (String × String) := [("/dev/null", ""), ("/tmp/", "")]

/-- A tree of files that are given by path, and those of the system. -/
def ofPaths (files : List (String × String)) : FileTree :=
  ⟨(files ++ system).map fun (path, text) => (names path, text)⟩

/-- What stands at a place of the tree, if anything does. -/
def at? (t : FileTree) (path : List String) : Option Place :=
  match t.files.lookup path with
  | some text => some (.file text)
  | none => if t.files.any fun f => path.isPrefixOf f.1 then some (.directory path) else none

/-- The directory above another. The root is above itself. -/
def parent : List String → Place
  | [] => .above
  | [""] => .directory [""]
  | path => .directory path.dropLast

/-- Go on from a place by one name. Nothing is below a file, whatever its name. -/
def step (t : FileTree) : Place → String → Except FileError Place
  | .file _, _ => .error .notDirectory
  | .above, name =>
    if name ∈ ["", ".", ".."] then .ok .above
    else if name.utf8ByteSize > maxName then .error .nameTooLong
    else .error .missing
  | .directory path, name =>
    if name ∈ ["", "."] then .ok (.directory path)
    else if name = ".." then .ok (parent path)
    else if name.utf8ByteSize > maxName then .error .nameTooLong
    else match t.at? (path ++ [name]) with
      | some place => .ok place
      | none => .error .missing

def read (t : FileTree) (path : String) : Except FileError String := do
  if path.isEmpty then throw .missing
  if path.utf8ByteSize > maxPath then throw .nameTooLong
  let start := if path.front = '/' then .directory [""] else .directory []
  match ← (names path).foldlM t.step start with
  | .file text => return text
  | _ => throw .isDirectory

end FileTree

end Kernelwright
