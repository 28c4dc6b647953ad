import PagedIndex.Disk.FileTree
import PagedIndex.Disk.Volume

/-!
# Stores

A store is an open way to a volume: a memory area, or a file of the file tree. Every access of the
library to an index file goes through a store.

## Main definitions

* `Disk` — all volumes and the file tree; `DiskM` computes on it.
* `Store.openFile`, `Store.createFile` — ways to files.
* `Store.read`, `Store.write`, `Store.lock`, `Store.unlock`, `Store.sync`, `Store.remove`.
-/

namespace PagedIndex

/-- All volumes, and the names of those that are files. -/
structure Disk where
  volumes : Array Volume := #[]
  tree : FileTree := {}
  deriving Inhabited

/-- Computations on the disk; what was done before an error stays done. -/
abbrev DiskM := EStateM Error Disk

namespace Disk

def volume (d : Disk) (id : Nat) : Volume := d.volumes.getD id default

def modifyVolume (d : Disk) (id : Nat) (f : Volume → Volume) : Disk :=
  { d with volumes := d.volumes.modify id f }

def addVolume (d : Disk) (v : Volume) : Nat × Disk :=
  (d.volumes.size, { d with volumes := d.volumes.push v })

end Disk

inductive StoreKind where
  | memory
  | file (writable : Bool)
  /-- A folder, which can be opened and not be read. -/
  | folder
  deriving DecidableEq, Inhabited

/-- An open way to a volume. -/
structure Store where
  volume : Nat
  kind : StoreKind
  /-- The name it was opened by. -/
  name : Option String
  deriving DecidableEq, Inhabited

namespace Store

/-- No access to a file may end here or behind. -/
def offsetBound : Nat := 0x8000000000000000

def fault {α : Type} (f : SystemFault) : DiskM α := throw (.io (.system f))

/-- Makes an access, and fails if it is refused. -/
def ask (s : Store) (access : Access) (offset length : Nat) : DiskM Unit := do
  let d ← get
  let refused := ((d.volume s.volume).ask access offset length).2
  modify fun d => d.modifyVolume s.volume fun v => (v.ask access offset length).1
  match refused with
  | none => pure ()
  | some cause => throw (access.error cause)

/-- Reads up to `length` bytes, fewer only at the end of the volume. -/
def read (s : Store) (offset length : Nat) : DiskM Bytes := do
  s.ask .read offset length
  match s.kind with
  | .folder => fault .isFolder
  | .file _ => if offset + length ≥ offsetBound then fault .invalidArgument
  | .memory => pure ()
  return ((← get).volume s.volume).contents.read offset length

def put (s : Store) (offset : Nat) (data : Bytes) : DiskM Unit :=
  modify fun d => d.modifyVolume s.volume fun v =>
    { v with contents := v.contents.write offset data }

/-- Writes all of `data`. An empty write extends a memory area up to its offset and does nothing
to a file. -/
def write (s : Store) (offset : Nat) (data : Bytes) : DiskM Unit := do
  s.ask .write offset data.length
  if !((← get).volume s.volume).hasRoom offset data.length then
    throw (.io Volume.fullCause)
  match s.kind with
  | .memory => s.put offset data
  | .file writable =>
    if offset + data.length ≥ offsetBound then fault .invalidArgument
    else if data.isEmpty then pure ()
    else if writable then s.put offset data
    else fault .badDescriptor
  | .folder => fault .badDescriptor

def lock (s : Store) : DiskM Unit := s.ask .lock 0 0

def unlock (s : Store) : DiskM Unit := s.ask .unlock 0 0

/-- Makes sure that what was written stays. -/
def sync (s : Store) : DiskM Unit := s.ask .sync 0 0

/-- Empties a memory area, or takes a file out of the file tree. -/
def remove (s : Store) : DiskM Unit := do
  s.ask .remove 0 0
  match s.kind, s.name with
  | .memory, _ => modify fun d => d.modifyVolume s.volume fun v => { v with contents := {} }
  | _, none => fault .noEntry
  | _, some name =>
    match (← get).tree.find name with
    | .error cause => throw (.io cause)
    | .ok (.folder _) => fault .isFolder
    | .ok (.missing _) => fault .noEntry
    | .ok (.file place _) => modify fun d => { d with tree := d.tree.erase place }

def ofMemory (volume : Nat) (name : Option String) : Store := ⟨volume, .memory, name⟩

/-- Opens a file that is there. A folder opens for reading. -/
def openFile (name : String) (writable : Bool) : DiskM Store := do
  match (← get).tree.find name with
  | .error cause => throw (.io cause)
  | .ok (.missing _) => fault .noEntry
  | .ok (.folder _) =>
    if writable then fault .isFolder
    else
      let (id, d) := (← get).addVolume {}
      set d
      return ⟨id, .folder, some name⟩
  | .ok (.file _ volume) => return ⟨volume, .file writable, some name⟩

/-- What a name leads to when a file is made there. A slash at the end asks for a folder, whatever
the name in front of it leads to. -/
def findTarget (t : FileTree) (name : String) : Except IoCause Found :=
  if name.toList.getLast? == some '/' then
    (t.locate name).bind fun _ => .error (.system .isFolder)
  else t.find name

/-- Opens an empty file, new or emptied. -/
def createFile (name : String) : DiskM Store := do
  match findTarget (← get).tree name with
  | .error cause => throw (.io cause)
  | .ok (.folder _) => fault .isFolder
  | .ok (.file _ volume) =>
    modify fun d => d.modifyVolume volume fun v => { v with contents := {} }
    return ⟨volume, .file true, some name⟩
  | .ok (.missing place) =>
    let (id, d) := (← get).addVolume {}
    set { d with tree := d.tree.insert place id }
    return ⟨id, .file true, some name⟩

end Store

end PagedIndex
