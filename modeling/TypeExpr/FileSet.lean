import TypeExpr.Text.Lines
import TypeExpr.Trouble

/-!
# File sets

The files that a run can see: what is in its working directory. A path is followed from
there, name by name. What lies outside the directory is not part of the set; all that is
known of it is that the way up leads to directories, and that it has the same limit for the
length of a name.
-/

namespace TypeExpr

/-- What a name in a file set stands for. -/
inductive FileItem where
  | file (bytes : ByteArray)
  | directory

/-- Files and directories with their names, as seen from the working directory. -/
structure FileSet where
  items : List (String × FileItem)

namespace FileSet

/-- The longest name, in bytes. -/
def nameLimit : Nat := 255

/-- The longest path, in bytes. -/
def pathLimit : Nat := 4095

/-- The parts of a path between its slashes. -/
def parts : List Char → List (List Char)
  | [] => [[]]
  | '/' :: rest => [] :: parts rest
  | c :: rest => Text.consFirst c (parts rest)

/-- What the set has under a name. A name is a directory also if another name leads through
it. -/
def find? (files : FileSet) (name : String) : Option FileItem :=
  match files.items.find? fun item => item.1 = name with
  | some item => some item.2
  | none =>
    if files.items.any fun item => (name ++ "/").toList.isPrefixOf item.1.toList then
      some .directory
    else none

/-- Whether a part of a path is no name, but stays in a directory or goes up from it. -/
def isStep (part : String) : Bool :=
  part = "" || part = "." || part = ".."

/-- Why there is nothing under a name. The length of a name is looked at before a directory
is searched for it, in the set as well as outside of it. -/
def missing (name : String) : FileError :=
  if nameLimit < name.utf8ByteSize then .nameTooLong else .notFound

/-- Follows a path outside of the set, which ends at its first name. -/
def followOutside (parts : List String) : FileError :=
  match parts.find? fun part => !isStep part with
  | some name => missing name
  | none => .isADirectory

/-- Follows a path from a directory of the set, given by its names from the innermost on. -/
def follow (files : FileSet) (directory : List String) :
    List String → Except FileError ByteArray
  | [] => .error .isADirectory
  | part :: rest =>
    if part = "" ∨ part = "." then follow files directory rest
    else if part = ".." then
      match directory with
      | [] => .error (followOutside rest)
      | _ :: outer => follow files outer rest
    else
      match files.find? ("/".intercalate (part :: directory).reverse) with
      | some (.file bytes) => if rest = [] then .ok bytes else .error .notADirectory
      | some .directory => follow files (part :: directory) rest
      | none => .error (missing part)

/-- The bytes of the file at a path. -/
def read (files : FileSet) (path : String) : Except FileError ByteArray :=
  if path = "" then .error .notFound
  else if path.toList.contains '\x00' then .error .badName
  else if pathLimit < path.utf8ByteSize then .error .nameTooLong
  else
    match (parts path.toList).map String.ofList with
    | "" :: rest => .error (followOutside rest)
    | parts => files.follow [] parts

end FileSet

end TypeExpr
