import PagedIndex.Cache.Basic
import PagedIndex.Error

/-!
# Blocks between cache and store

## Main definitions

* `Cache.fetch` — loads a block, recycling a buffer if none is free.
* `Cache.release` — writes back and drops the blocks of one file.
* `Cache.purge` — writes back and drops all blocks not in use.
* `Cache.restore` — puts back an earlier image of a block.
-/

namespace PagedIndex

/-- A cache over a disk. -/
structure Buffered where
  cache : Cache
  disk : Disk
  deriving Inhabited

/-- Computations on a cache and the disk below it; what was done before an error stays done. -/
abbrev CacheM := EStateM Error Buffered

/-- What becomes of the blocks of a file that is released. -/
inductive Release where
  /-- Changes are written back first. -/
  | flush
  /-- Changes are lost. -/
  | discard
  deriving DecidableEq

namespace Cache

def onDisk {α : Type} (x : DiskM α) : CacheM α := fun ⟨cache, disk⟩ =>
  match x disk with
  | .ok a disk => .ok a ⟨cache, disk⟩
  | .error e disk => .error e ⟨cache, disk⟩

def update (f : Cache → Cache) : CacheM Unit := modify fun ⟨cache, disk⟩ => ⟨f cache, disk⟩

def storeOf (file : FileId) : CacheM Store := do
  match (← get).cache.registration? file with
  | some r => return r.store
  | none => throw .invalidHandle

def takePending (file : FileId) : CacheM (Option Error) := do
  match (← get).cache.registration? file with
  | none => return none
  | some r =>
    update fun c => c.modifyFile file fun r => { r with pending := none }
    return r.pending

def writeBack (i : Nat) : CacheM Unit := do
  match (← get).cache.buffer? i with
  | none => pure ()
  | some b =>
    if b.dirty then
      match (← get).cache.registration? b.file with
      | none => throw (.internal .unregisteredBuffer)
      | some r =>
        onDisk (r.store.write b.pos.offset b.image)
        update fun c =>
          { c.modifyBuffer i fun b => { b with dirty := false } with writes := c.writes + 1 }

/-- Takes the block away from the buffer to recycle next, writing it back if need be. -/
def evict : CacheM Nat := do
  match (← get).cache.victim? with
  | none => throw (.internal .noEvictableBuffer)
  | some i =>
    writeBack i
    update fun c => { c.unhook i with evictions := c.evictions + 1 }
    return i

/-- A buffer that holds nothing: a free one, or else a recycled one. -/
def vacate : CacheM Nat := do
  match (← get).cache.free with
  | i :: rest =>
    update fun c => { c with free := rest }
    return i
  | [] => evict

/-- Reads a block. The header may be cut short by the end of the file. -/
def readImage (store : Store) (pos : BlockPos) (blockSize : Nat) : DiskM Bytes := do
  let got ← store.read pos.offset blockSize
  if got.length = blockSize then return got
  else if pos.isNull && minHeaderBytes ≤ got.length then
    return Bytes.resize got blockSize filler
  else throw (.corrupt (.shortRead pos got.length blockSize))

/-- The buffer of a block, which is loaded if no buffer holds it: read from the store, or filled
if `read` is not set. -/
def fetch (file : FileId) (pos : BlockPos) (blockSize : Nat) (read : Bool) : CacheM Nat := do
  match (← get).cache.lookup file pos with
  | some i =>
    update fun c => { c.touch i with hits := c.hits + 1 }
    return i
  | none =>
    update fun c => { c with misses := c.misses + 1 }
    let store ← storeOf file
    let i ← vacate
    let loaded ← attempt <|
      if read then onDisk (readImage store pos blockSize)
      else pure (List.replicate blockSize filler)
    match loaded with
    | .error e =>
      update (·.giveBack i)
      throw e
    | .ok image =>
      update (·.hook i ⟨file, pos, image, false, false⟩)
      return i

/-- Releases one buffer of a file, unless its changes cannot be written. -/
def releaseBuffer (mode : Release) (i : Nat) : CacheM (Except Error Unit) := do
  let written ← attempt (match mode with
    | .flush => writeBack i
    | .discard => pure ())
  if written matches .ok () then update (·.discard i)
  return written

/-- Releases those of the given buffers that hold blocks of a file; the first failure is kept. -/
def releaseAmong (file : FileId) (mode : Release) : List Nat → CacheM (Except Error Unit)
  | [] => return .ok ()
  | i :: rest => do
    let c := (← get).cache
    if (c.buffer? i).any (·.file == file) then
      let first ← releaseBuffer mode i
      let others ← releaseAmong file mode rest
      return firstError first others
    else releaseAmong file mode rest

/-- Releases all blocks of a file. A block whose changes cannot be written stays, and the first
failure is reported in the end. -/
def release (file : FileId) (mode : Release) : CacheM Unit := do
  settle (← releaseAmong file mode (List.range (← get).cache.capacity))

/-- Releases those of the given buffers that are not pinned, and counts them. A failure is kept for
the file concerned. -/
def purgeAmong : List Nat → CacheM Nat
  | [] => return 0
  | i :: rest => do
    match (← get).cache.buffer? i with
    | none => purgeAmong rest
    | some b =>
      if b.pinned then purgeAmong rest
      else
        match ← releaseBuffer .flush i with
        | .ok () => return (← purgeAmong rest) + 1
        | .error e =>
          update (·.park b.file e)
          purgeAmong rest

/-- Releases all blocks that no running call uses, and counts them. -/
def purge : CacheM Nat := do purgeAmong (List.range (← get).cache.capacity)

def unregister (file : FileId) : CacheM Unit := do
  let _ ← attempt (release file .discard)
  update fun c => { c with files := c.files.filter (·.1 != file) }

/-- Makes `image` the current image of a block. If no buffer can be had it is written to the store
at once. -/
def restore (file : FileId) (pos : BlockPos) (image : Bytes) : CacheM Unit := do
  match (← get).cache.lookup file pos with
  | some i => update (·.setImage i image)
  | none =>
    match ← attempt (fetch file pos image.length false) with
    | .ok i => update (·.setImage i image)
    | .error _ =>
      let store ← storeOf file
      onDisk (store.write pos.offset image)

end Cache

end PagedIndex
