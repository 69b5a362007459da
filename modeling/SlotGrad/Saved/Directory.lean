import SlotGrad.Error
import SlotGrad.Saved.Bytes

/-!
# Files by path

Nets are saved in files of a working directory.  A path is a list of names; it leads through
directories to a file.  The only directories are the working directory and the one that it lies in,
whose other members are reached by the name for going up.

Two things can be too long: a name, and a path as a whole.  How long a path can be depends on where
the working directory lies, so that the room for paths is part of a directory.

## Main definitions

* `FilePath`, `FilePath.parse`, `FilePath.withSuffix` — paths and changing the suffix of one.
* `Directory`, `Directory.locate` — the files, and the file that a path leads to.
* `Directory.Fits` — the paths that are not too long, by their last name and as a whole.
* `Directory.read`, `Directory.write`, `Directory.remove` — access to files.
* `Directory.listing` — the files of the working directory.
-/

namespace SlotGrad
namespace Saved

/-- The names on the way to a file, from the working directory on. -/
abbrev FilePath := List String

namespace FilePath

/-- The mark between names. -/
def separator : String := "/"

/-- The name of the directory that one is in. -/
def here : String := "."

/-- The name of the directory that a directory lies in. -/
def up : String := ".."

/-- The names of a path; empty names and the name for staying are left out. -/
def parse (s : String) : FilePath :=
  (s.splitOn separator).filter fun name => name != "" && name != here

/-- The start of a name before its suffix.  A suffix begins at the last point, which is neither
the first nor the last character. -/
def stem (name : String) : String :=
  let cs := name.toList
  let tail := cs.reverse.takeWhile (· != '.')
  let k := cs.length - tail.length
  if tail.isEmpty ∨ k ≤ 1 then name else String.ofList (cs.take (k - 1))

/-- The name of the working directory in the directory that it lies in; the name itself is not
known. -/
def workingName : String := ""

/-- A path whose last name has another suffix, as names from the outer directory on. -/
def withSuffix (p : FilePath) (suffix : String) : FilePath :=
  let full := workingName :: p
  full.dropLast ++ [stem (full.getLast?.getD workingName) ++ suffix]

/-- The bytes of a path as text: those of its names, and a mark between each two of them. -/
def textSize (p : FilePath) : Nat :=
  p.foldl (fun size name => size + name.utf8ByteSize) (p.length - 1)

end FilePath

/-- The files in the working directory and next to it. -/
structure Directory where
  /-- The files by their names from the outer directory on. -/
  files : List (FilePath × Bytes)
  /-- The most bytes that the text of a path has beyond that of the working directory, whose name is
  not known. -/
  room : Nat

namespace Directory

/-- The most bytes that a name has. -/
def longestName : Nat := 255

/-- The most bytes that the text of a path has. -/
def longestPath : Nat := 4095

/-- No files, and all room for paths. -/
def empty : Directory := ⟨[], longestPath⟩

/-- The content of the file at a place. -/
def find? (d : Directory) (place : FilePath) : Option Bytes := d.files.lookup place

/-- Whether a place is a directory. -/
def isDirectory (place : FilePath) : Bool := place = [] || place = [FilePath.workingName]

/-- Neither the last name of the path nor the path as a whole is too long. -/
def Fits (d : Directory) (p : FilePath) : Prop :=
  p.textSize ≤ d.room ∧ ∀ name ∈ p.getLast?, name.utf8ByteSize ≤ longestName

/-- The place of the member of a name in a directory. -/
def member (place : FilePath) (name : String) : Fallible FilePath :=
  if longestName < name.utf8ByteSize then .error .nameTooLong else .ok (place ++ [name])

/-- Go from a directory to the directory of a name in it. -/
def enter (d : Directory) (place : FilePath) (name : String) : Fallible FilePath := do
  if name = FilePath.up then return place.dropLast
  let next ← member place name
  if isDirectory next then return next
  else if (d.find? next).isSome then throw .notDirectory
  else throw .missingFile

/-- The place that a path leads to: its names but the last one have to be directories.  No name
holds the character that ends texts, and a path that is too long leads nowhere. -/
def locate (d : Directory) (p : FilePath) : Fallible FilePath := do
  if p.any (·.contains '\x00') then throw .badValue
  if d.room < p.textSize then throw .nameTooLong
  let place ← p.dropLast.foldlM (enter d) []
  p.getLast?.elim (.ok place) (member place)

/-- The content of the file that a path leads to. -/
def read (d : Directory) (p : FilePath) : Fallible Bytes := do
  let place ← d.locate p
  if isDirectory place then throw .isDirectory
  Fallible.ofOption .missingFile (d.find? place)

/-- The content of the file that a path leads to, if there is one. -/
def read? (d : Directory) (p : FilePath) : Fallible (Option Bytes) :=
  match d.read p with
  | .ok content => .ok (some content)
  | .error .missingFile => .ok none
  | .error f => .error f

/-- The files without the one at a place. -/
def without (d : Directory) (place : FilePath) : Directory :=
  { d with files := d.files.filter fun f => f.1 != place }

/-- The files with a content at a place. -/
def put (d : Directory) (place : FilePath) (content : Bytes) : Directory :=
  { d with files := (place, content) :: (d.without place).files }

/-- Write the file that a path leads to. -/
def write (d : Directory) (p : FilePath) (content : Bytes) : Fallible Directory := do
  let place ← d.locate p
  if isDirectory place then throw .isDirectory
  return d.put place content

/-- Remove the file that a path leads to. -/
def remove (d : Directory) (p : FilePath) : Fallible Directory := do
  let place ← d.locate p
  if (d.find? place).isNone then throw .missingFile
  return d.without place

/-- The files of the working directory, in the order of their names. -/
def listing (d : Directory) : List (String × Bytes) :=
  (d.files.filterMap fun
    | ([w, name], content) => if w = FilePath.workingName then some (name, content) else none
    | _ => none).mergeSort fun a b => a.1 ≤ b.1

end Directory
end Saved
end SlotGrad
