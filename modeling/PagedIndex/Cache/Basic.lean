import PagedIndex.Cache.Chains
import PagedIndex.Cache.Recency
import PagedIndex.Disk.Store

/-!
# Block caches

A cache keeps images of blocks of several files in a bounded number of buffers. Buffers are found
through chains, one for each hash value of file and position. Buffers that hold no block are on a
stack of free buffers; the others are in the recency list, in the order in which they will be
recycled. Pinned buffers are in use by a running call and are not recycled.

## Main definitions

* `Cache` — the buffers and what is known of them.
* `Cache.register` — takes up a file under a number that is not in use.
* `Cache.lookup` — the buffer that holds a block.
* `Cache.hook`, `Cache.discard` — a buffer takes up a block and gives it up.
-/

namespace PagedIndex

/-- The number of an open file in a cache. -/
abbrev FileId := Nat

/-- A buffer that holds a block. -/
structure Buffer where
  file : FileId
  pos : BlockPos
  image : Bytes
  /-- Whether the image has changes that the store lacks. -/
  dirty : Bool
  pinned : Bool
  deriving DecidableEq, Inhabited

/-- What a cache knows of an open file. -/
structure Registration where
  store : Store
  /-- A failure between calls, to be reported by the next call. -/
  pending : Option Error
  deriving DecidableEq

/-- A bounded set of buffers. -/
structure Cache where
  buffers : Array (Option Buffer)
  /-- The buffers of each hash value. -/
  chains : Chains
  /-- The buffers that hold nothing; the next one to use is in front. -/
  free : List Nat
  recency : Recency
  files : List (FileId × Registration)
  /-- The number to try first for the next file. -/
  nextFile : UInt32
  hits : Nat
  misses : Nat
  evictions : Nat
  writes : Nat
  deriving Inhabited

structure CacheStats where
  capacity : Nat
  inUse : Nat
  dirty : Nat
  hits : Nat
  misses : Nat
  evictions : Nat
  writes : Nat
  deriving DecidableEq

namespace Cache

/-- A cache of `buffers` buffers, but of as many as there are roles at least. -/
def new (buffers : Nat) : Cache :=
  let capacity := max buffers minBuffers
  { buffers := Array.replicate capacity none
    chains := .new capacity
    free := List.range capacity
    recency := .new capacity
    files := []
    nextFile := 1
    hits := 0
    misses := 0
    evictions := 0
    writes := 0 }

def capacity (c : Cache) : Nat := c.buffers.size

def buffer? (c : Cache) (i : Nat) : Option Buffer := c.buffers.getD i none

def held (c : Cache) : List Buffer := c.buffers.toList.filterMap id

def stats (c : Cache) : CacheStats where
  capacity := c.capacity
  inUse := c.held.length
  dirty := (c.held.filter (·.dirty)).length
  hits := c.hits
  misses := c.misses
  evictions := c.evictions
  writes := c.writes

/-! ## Open files -/

def registration? (c : Cache) (file : FileId) : Option Registration := c.files.lookup file

/-- The first of `tries` numbers from one on that is neither zero nor in use. If all are in use, it
is one behind all of them. -/
def unusedFrom (c : Cache) : Nat → UInt32 → FileId
  | 0, _ => c.files.foldr (fun f n => max (f.1 + 1) n) UInt32.size
  | tries + 1, file =>
    if file ≠ 0 ∧ (c.registration? file.toNat).isNone then file.toNat
    else c.unusedFrom tries (file + 1)

/-- A number that is not in use. Of as many numbers as there are files and two more, one is neither
in use nor zero. -/
def freshFile (c : Cache) : FileId := c.unusedFrom (c.files.length + 2) c.nextFile

def register (c : Cache) (store : Store) : FileId × Cache :=
  (c.freshFile,
    { c with
      files := (c.freshFile, ⟨store, none⟩) :: c.files
      nextFile := .ofNat (c.freshFile + 1) })

def modifyFile (c : Cache) (file : FileId) (f : Registration → Registration) : Cache :=
  { c with files := c.files.map fun (id, r) => if id = file then (id, f r) else (id, r) }

/-- Keeps a failure for the next call on the file, unless one is kept already. -/
def park (c : Cache) (file : FileId) (e : Error) : Cache :=
  c.modifyFile file fun r => { r with pending := r.pending <|> some e }

/-! ## Chains -/

def hash (file : FileId) (pos : BlockPos) : Fin chainCount :=
  ⟨(file + pos.offset / 256) % chainCount, Nat.mod_lt _ (by decide)⟩

def chain (c : Cache) (k : Fin chainCount) : List Nat := c.chains.chain k

def holds (c : Cache) (file : FileId) (pos : BlockPos) (i : Nat) : Bool :=
  match c.buffer? i with
  | some b => b.file == file && b.pos == pos
  | none => false

def lookup (c : Cache) (file : FileId) (pos : BlockPos) : Option Nat :=
  (c.chain (hash file pos)).find? (c.holds file pos)

/-! ## Buffers -/

def modifyBuffer (c : Cache) (i : Nat) (f : Buffer → Buffer) : Cache :=
  { c with buffers := c.buffers.modify i (Option.map f) }

def touch (c : Cache) (i : Nat) : Cache := { c with recency := c.recency.touch i }

/-- Gives a buffer a block to hold. -/
def hook (c : Cache) (i : Nat) (b : Buffer) : Cache :=
  { c.touch i with
    chains := c.chains.push (hash b.file b.pos) i
    buffers := c.buffers.setIfInBounds i (some b) }

/-- Takes a buffer out of its chain and the recency list, and its block away. -/
def unhook (c : Cache) (i : Nat) : Cache :=
  match c.buffer? i with
  | none => c
  | some b =>
    { c with
      chains := c.chains.unlink (hash b.file b.pos) i
      recency := c.recency.remove i
      buffers := c.buffers.setIfInBounds i none }

def giveBack (c : Cache) (i : Nat) : Cache := { c with free := i :: c.free }

def discard (c : Cache) (i : Nat) : Cache := (c.unhook i).giveBack i

def forget (c : Cache) (file : FileId) (pos : BlockPos) : Cache :=
  match c.lookup file pos with
  | some i => c.discard i
  | none => c

/-- Keeps a buffer from being recycled, or no longer. -/
def setPinned (c : Cache) (i : Nat) (pinned : Bool) : Cache :=
  c.modifyBuffer i fun b => { b with pinned := pinned }

/-- Changes the image of a buffer, which then lacks in the store. -/
def setImage (c : Cache) (i : Nat) (image : Bytes) : Cache :=
  c.modifyBuffer i fun b => { b with image := image, dirty := true }

/-- The buffer to recycle next: of those not pinned the one unused for longest. -/
def victim? (c : Cache) : Option Nat :=
  c.recency.oldestFirst.find? fun i => (c.buffer? i).any (!·.pinned)

end Cache

end PagedIndex
