import PagedIndex.Cache.Transfer

/-!
# Workspaces

All that the open files of one program share: the disk, the caches, and the record cells.

A record cell holds a record position for the caller of a file. An insertion takes the position
from it, and a move that lands on an entry puts the position of that entry into it.
-/

namespace PagedIndex

/-- What open files share. -/
structure Workspace where
  disk : Disk := {}
  /-- The caches; the first one is common to all files opened without one of their own. -/
  caches : Array Cache := #[Cache.new defaultBuffers]
  cells : Array Nat := #[]
  deriving Inhabited

abbrev WorkspaceM := EStateM Error Workspace

namespace Workspace

def commonCache : Nat := 0

def cache (w : Workspace) (id : Nat) : Cache := w.caches.getD id default

def cell (w : Workspace) (id : Nat) : Nat := w.cells.getD id 0

def setCell (w : Workspace) (id record : Nat) : Workspace :=
  { w with cells := w.cells.setIfInBounds id record }

def addCache (w : Workspace) (buffers : Nat) : Nat × Workspace :=
  (w.caches.size, { w with caches := w.caches.push (Cache.new buffers) })

/-- Adds a record cell at 0 and tells its number. -/
def addCell (w : Workspace) : Nat × Workspace :=
  (w.cells.size, { w with cells := w.cells.push 0 })

def onCache {α : Type} (id : Nat) (x : CacheM α) : WorkspaceM α := fun ⟨disk, caches, cells⟩ =>
  match x ⟨caches.getD id default, disk⟩ with
  | .ok a ⟨cache, disk⟩ => .ok a ⟨disk, caches.setIfInBounds id cache, cells⟩
  | .error e ⟨cache, disk⟩ => .error e ⟨disk, caches.setIfInBounds id cache, cells⟩

def onDisk {α : Type} (x : DiskM α) : WorkspaceM α := fun ⟨disk, caches, cells⟩ =>
  match x disk with
  | .ok a disk => .ok a ⟨disk, caches, cells⟩
  | .error e disk => .error e ⟨disk, caches, cells⟩

end Workspace

end PagedIndex
