import MixedSignal.Verilog.Module

/-!
# Emitted files

A compiled model is a file with the module, and beside it a file for each table. Files are written one
after the other; a later one replaces an earlier one of the same name.
-/

namespace MixedSignal

/-- The files of a folder by name. -/
abbrev Folder := OrderedMap String String

namespace Folder

/-- Whether a name sorts before another one; names are compared byte by byte. -/
def nameLe (a b : String) : Bool :=
  !(b.toUTF8.toList.map (·.toNat) < a.toUTF8.toList.map (·.toNat) : Bool)

/-- The files sorted by name. -/
def sorted (f : Folder) : List (String × String) := f.entries.mergeSort fun a b => nameLe a.1 b.1

/-- The most bytes in the name of a file. -/
def maxNameSize : Nat := 255

/-- The most bytes in a path. -/
def maxPathSize : Nat := 4095

/-- Follow the steps of a path from a folder without folders inside it, to the name of a file and
whether that file is in the folder itself. An empty step and a dot lead nowhere, and two dots lead
out. A path through a name does not exist, and a path that ends at a folder is no file. -/
def follow (inside : Bool) : List String → Except FileError (Bool × String)
  | [] => .error .isFolder
  | step :: rest =>
    if step = "" ∨ step = "." then follow inside rest
    else if step = ".." then follow false rest
    else if rest ≠ [] ∧ rest.all (· == "") then .error .isFolder
    else if maxNameSize < step.utf8ByteSize then .error .nameTooLong
    else if rest = [] then .ok (inside, step)
    else .error .notFound

/-- Where a path leads from a folder; a path that starts with a slash leaves the folder at once. -/
def locate (path : String) : Except FileError (Bool × String) :=
  if path.contains '\x00' then .error .zeroByte
  else if maxPathSize < path.utf8ByteSize then .error .nameTooLong
  else follow (!path.startsWith "/") (path.splitOn "/")

/-- A path below a folder as messages show it. -/
def shown (folder path : String) : String :=
  if path.startsWith "/" then path else folder ++ "/" ++ path

/-- Write a file, which also says whether it is in the folder; files outside are not recorded. -/
def write (folder : String) (f : Folder) (path contents : String) : Except Error (Bool × Folder) :=
  match locate path with
  | .ok (inside, name) => .ok (inside, if inside then f.replace name contents else f)
  | .error e => .error (.unwritable (shown folder path) e)

end Folder

namespace Model

variable {R : Type} [Scalar R]

/-- The files of a compiled model, written into an empty folder. Tables go where the module goes. -/
def compileToFiles (folder path : String) (settings : Settings) : Edit R Folder := do
  let text ← compile settings
  let (inside, files) ← check id (Folder.write folder {} path text)
  let all ← (← get).tables.entries.foldlM (fun files (name, table) => do
    return (← check id (Folder.write folder files (table.fileName name) table.contents)).2) files
  return if inside then all else files

end Model

end MixedSignal
