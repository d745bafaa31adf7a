/-!
Files: what reading the file at a path gives. `FileTree.read` answers for a directory of which all
files are known, by following the names in the path one after the other; the first name at which
that fails tells the fault.
-/

namespace Lox.CommandLine

/-- Why a file cannot be read. -/
inductive FileFault where
  | missing
  | denied
  | notDirectory
  | isDirectory
  | nameTooLong
  deriving DecidableEq, Repr

/-- The system's text for a fault. -/
def FileFault.message : FileFault → String
  | .missing => "No such file or directory (os error 2)"
  | .denied => "Permission denied (os error 13)"
  | .notDirectory => "Not a directory (os error 20)"
  | .isDirectory => "Is a directory (os error 21)"
  | .nameTooLong => "File name too long (os error 36)"

/-- The files that a command can read, by their paths. -/
abbrev Files := String → Except FileFault ByteArray

/-- The names in a path, which slashes stand between. -/
def pathNames (path : String) : List String :=
  let names := path.toList.foldr (fun c names =>
    match names with
    | name :: rest => if c = '/' then [] :: name :: rest else (c :: name) :: rest
    | [] => [[c]]) [[]]
  names.map String.ofList

/-- Files, each with the names on the way to it from the root. -/
abbrev FileTree := List (List String × ByteArray)

namespace FileTree

/-- The most bytes that a name may have. -/
def longestName : Nat := 255

/-- The most bytes that a path may have. -/
def longestPath : Nat := 4095

/-- The directory that relative paths start from. No path can hold its name, which is empty. -/
def home : List String := [""]

/-- The tree that has files with these paths in the directory that relative paths start from. Of all
other files, only the device that is always empty is known. -/
def ofFiles (files : List (String × ByteArray)) : FileTree :=
  (["dev", "null"], .empty) :: files.map fun (path, contents) =>
    (home ++ (pathNames path).filter fun name => name ≠ "" ∧ name ≠ ".", contents)

/-- The names lead to a directory: to the one that relative paths start from, to one above it, or to
one that a file lies below. -/
def isDirectory (t : FileTree) (names : List String) : Bool :=
  names.isPrefixOf home || t.any fun file => file.1 ≠ names && names.isPrefixOf file.1

/-- Follows the names in a path from a directory. -/
def follow (t : FileTree) (here : List String) : List String → Except FileFault ByteArray
  | [] => .error .isDirectory
  | name :: rest =>
    if name = "" ∨ name = "." then t.follow here rest
    else if name = ".." then t.follow here.dropLast rest
    else if longestName < name.utf8ByteSize then .error .nameTooLong
    else
      let next := here ++ [name]
      match t.lookup next with
      | some contents => if rest = [] then .ok contents else .error .notDirectory
      | none => if t.isDirectory next then t.follow next rest else .error .missing

/-- Reads the file at a path. -/
def read (t : FileTree) : Files := fun path =>
  if path = "" then .error .missing
  else if longestPath < path.utf8ByteSize then .error .nameTooLong
  else t.follow (if path.startsWith "/" then [] else home) (pathNames path)

end FileTree

end Lox.CommandLine
