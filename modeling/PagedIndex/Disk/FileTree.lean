import PagedIndex.Disk.FileName
import PagedIndex.Error
import Std.Data.TreeMap

/-!
# Folders and files

Where files lie, seen from the folder that names start from. A file is known by the number of the
volume with its bytes, so a volume outlives its name. Folders are numbered too, in the order in
which they were made.

## Main definitions

* `FileTree.find` — follows a name; `FileTree.locate` stops in front of its last part.
* `FileTree.insert`, `FileTree.erase` — gives a volume a name and takes it away.
* `FileTree.makeFolders` — makes the folder a name leads to, and those around it.
-/

namespace PagedIndex

/-- A folder: the root, one of those around the folder that names start from, or one that was
made. -/
inductive Folder where
  | root
  /-- So many folders up from the one that names start from. -/
  | around (levels : Nat)
  | made (number : Nat)
  deriving DecidableEq, Ord, Inhabited

namespace Folder

def start : Folder := .around 0

end Folder

/-- A name in a folder. -/
structure Place where
  folder : Folder
  name : String
  deriving DecidableEq, Ord, Inhabited

/-- What lies at a place. -/
inductive Item where
  | folder (number : Nat)
  | file (volume : Nat)
  deriving DecidableEq

/-- What a name leads to. -/
inductive Found where
  | folder (folder : Folder)
  | file (place : Place) (volume : Nat)
  /-- Nothing, in a folder that is there. -/
  | missing (place : Place)

/-- The folders made so far and the files in all folders. -/
structure FileTree where
  /-- Where the folders lie that were made, by number. -/
  made : Array Place := #[]
  items : Std.TreeMap Place Item := {}
  deriving Inhabited

namespace FileTree

/-- Longest part of a name, in bytes. -/
def maxPart : Nat := 255

/-- Longest name, in bytes. -/
def maxName : Nat := 4095

/-- The folder around a folder; the root lies in itself. -/
def outer (t : FileTree) : Folder → Folder
  | .root => .root
  | .around levels => .around (levels + 1)
  | .made number => (t.made.getD number default).folder

def follow (t : FileTree) : Folder → List String → Except SystemFault Found
  | here, [] => .ok (.folder here)
  | here, part :: rest =>
    if part == "" || part == "." then t.follow here rest
    else if part == ".." then t.follow (t.outer here) rest
    else if part.utf8ByteSize > maxPart then .error .nameTooLong
    else
      let there : Place := ⟨here, part⟩
      match t.items[there]?, rest with
      | some (.folder number), _ => t.follow (.made number) rest
      | some (.file volume), [] => .ok (.file there volume)
      | some (.file _), _ :: _ => .error .notFolder
      | none, [] => .ok (.missing there)
      | none, _ :: _ => .error .noEntry

/-- Where a name starts, and its parts. -/
def route (name : String) : Folder × List String :=
  let parts := (FileName.segments name.toList).map String.ofList
  (if name.toList.head? == some '/' then .root else .start, parts)

def nulCause : IoCause := .described .other "file name contained an unexpected NUL byte"

/-- Refuses the names that lead nowhere, whatever lies on the disk. -/
def checkName (name : String) : Except IoCause Unit :=
  if name.toList.contains '\x00' then .error nulCause
  else if name == "" then .error (.system .noEntry)
  else if name.utf8ByteSize > maxName then .error (.system .nameTooLong)
  else .ok ()

def find (t : FileTree) (name : String) : Except IoCause Found := do
  checkName name
  let (here, parts) := route name
  (t.follow here parts).mapError .system

/-- Follows a name up to its last part; slashes behind that part do not count. -/
def locate (t : FileTree) (name : String) : Except IoCause Place := do
  checkName name
  let (here, parts) := route name
  let kept := (parts.reverse.dropWhile (· == "")).reverse
  match (t.follow here kept.dropLast).mapError .system with
  | .error cause => .error cause
  | .ok (.folder folder) => .ok ⟨folder, kept.getLast?.getD ""⟩
  | .ok (.file _ _) => .error (.system .notFolder)
  | .ok (.missing _) => .error (.system .noEntry)

def leadsToFolder (t : FileTree) (name : String) : Bool :=
  match t.find name with
  | .ok (.folder _) => true
  | _ => false

def insert (t : FileTree) (p : Place) (volume : Nat) : FileTree :=
  { t with items := t.items.insert p (.file volume) }

def erase (t : FileTree) (p : Place) : FileTree := { t with items := t.items.erase p }

def makeFolder (t : FileTree) (name : String) : Except IoCause FileTree := do
  let there ← t.locate name
  if ["", ".", ".."].contains there.name || t.items.contains there then
    .error (.system .alreadyThere)
  else if there.name.utf8ByteSize > maxPart then .error (.system .nameTooLong)
  else
    return {
      made := t.made.push there
      items := t.items.insert there (.folder t.made.size) }

/-- Makes a folder that may be there already. -/
def ensureFolder (t : FileTree) (name : String) : Except IoCause FileTree :=
  match t.makeFolder name with
  | .ok made => .ok made
  | .error cause => if t.leadsToFolder name then .ok t else .error cause

/-- Makes the folder a name leads to, and those around it that are missing, of which there are at
most `bound`. What was made before an error stays made. -/
def makeWithin (t : FileTree) : Nat → String → FileTree × Except IoCause Unit
  | 0, _ => (t, .ok ())
  | bound + 1, name =>
    if name == "" then (t, .ok ())
    else
      match t.ensureFolder name with
      | .ok made => (made, .ok ())
      | .error (.system .noEntry) =>
        match t.makeWithin bound ((FileName.parent? name).getD "") with
        | (around, .error cause) => (around, .error cause)
        | (around, .ok ()) =>
          match around.ensureFolder name with
          | .ok made => (made, .ok ())
          | .error cause => (around, .error cause)
      | .error cause => (t, .error cause)

/-- Makes the folder a name leads to, and those around it that are missing; each lies in one with a
shorter name. -/
def makeFolders (t : FileTree) (name : String) : FileTree × Except IoCause Unit :=
  t.makeWithin (name.length + 1) name

end FileTree

end PagedIndex
