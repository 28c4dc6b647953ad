import PagedIndex.Cache.Transfer
import PagedIndex.Session.Program

/-!
# Sessions

A session carries out one index call over a cache. It keeps the block of each role pinned, and it
keeps the image that a block had before the call first changed it. If the call fails, these images
are put back, so that no part of its changes stays.

A locked session holds the lock of the store from its beginning to its end, and drops whatever the
cache holds of the file when it begins, so nothing is believed that was read under an earlier lock.

## Main definitions

* `Session.perform` — carries out a program.
* `Session.transact` — a whole call: begins, performs, finishes, or rolls back.
-/

namespace PagedIndex

/-- The buffers that the roles hold. -/
structure Holdings where
  header : Option Nat := none
  current : Option Nat := none
  parent : Option Nat := none
  sibling : Option Nat := none
  deriving DecidableEq, Inhabited

namespace Holdings

def get (h : Holdings) : Role → Option Nat
  | .header => h.header
  | .current => h.current
  | .parent => h.parent
  | .sibling => h.sibling

def set (h : Holdings) (role : Role) (i : Option Nat) : Holdings :=
  match role with
  | .header => { h with header := i }
  | .current => { h with current := i }
  | .parent => { h with parent := i }
  | .sibling => { h with sibling := i }

def toList (h : Holdings) : List Nat :=
  [h.header, h.current, h.parent, h.sibling].filterMap id

end Holdings

/-- What a block was before the call changed it. -/
structure Undo where
  pos : BlockPos
  /-- The image, or nothing for a block that the call added to the file. -/
  image : Option Bytes
  deriving DecidableEq

/-- What becomes of the blocks of the file when a session ends well. -/
inductive EndMode where
  /-- They stay in the cache. -/
  | keep
  /-- They are written back and dropped. -/
  | flush
  deriving DecidableEq

/-- A running call. -/
structure Session where
  file : FileId
  layout : Layout
  /-- Whether the session holds the lock of the store. -/
  locked : Bool
  held : Holdings := {}
  pointers : Pointers := {}
  /-- Whether the pointers differ from those in the header block. -/
  pointersChanged : Bool := false
  /-- The blocks changed so far, in the order of their first change. -/
  undo : List Undo := []
  /-- The last block of the file when the session began. -/
  highWater : BlockPos := .null
  deriving Inhabited

/-- Computations of a running call; what was done before an error stays done. -/
abbrev SessionM := EStateM Error (Session × Buffered)

namespace Session

def onCache {α : Type} (x : CacheM α) : SessionM α := fun (session, below) =>
  match x below with
  | .ok a below => .ok a (session, below)
  | .error e below => .error e (session, below)

def update (f : Session → Session) : SessionM Unit :=
  modify fun (session, below) => (f session, below)

def updateCache (f : Cache → Cache) : SessionM Unit := onCache (Cache.update f)

/-- Takes the buffer of a role away from it; a buffer that no other role holds is unpinned. -/
def letGo (role : Role) : SessionM Unit := do
  let session := (← get).1
  match session.held.get role with
  | none => pure ()
  | some i =>
    let held := session.held.set role none
    update fun s => { s with held := held }
    if !held.toList.contains i then updateCache (·.setPinned i false)

def load (role : Role) (pos : BlockPos) (read : Bool) : SessionM Unit := do
  letGo role
  let session := (← get).1
  let i ← onCache (Cache.fetch session.file pos session.layout.blockSize read)
  updateCache (·.setPinned i true)
  update fun s => { s with held := s.held.set role (some i) }

def holding (role : Role) : SessionM (Nat × Buffer) := do
  let (session, below) ← get
  match session.held.get role with
  | none => throw (.internal (.noHeldBlock role))
  | some i =>
    match below.cache.buffer? i with
    | none => throw (.internal .emptyBuffer)
    | some b => return (i, b)

/-- Keeps the image of a block that is about to be changed, unless that was done before. -/
def remember (b : Buffer) : SessionM Unit :=
  update fun s =>
    if s.undo.any (·.pos == b.pos) then s
    else
      let added := !b.pos.isNull && s.highWater.offset < b.pos.offset
      { s with undo := s.undo ++ [⟨b.pos, if added then none else some b.image⟩] }

def edit (role : Role) (change : Edit) : SessionM Unit := do
  let (i, b) ← holding role
  remember b
  let (image, outcome) := change b.image
  updateCache (·.setImage i image)
  settle outcome

def setPointers (p : Pointers) : SessionM Unit :=
  update fun s => if s.pointers = p then s else { s with pointers := p, pointersChanged := true }

def perform {α : Type} : Program α → SessionM α
  | .done a => pure a
  | .fail e => throw e
  | .load role pos read next => do
    load role pos read
    perform next
  | .view role next => do
    let (_, b) ← holding role
    perform (next b.image)
  | .edit role change next => do
    edit role change
    perform next
  | .pointers next => do
    let (session, _) ← get
    perform (next session.pointers)
  | .setPointers p next => do
    setPointers p
    perform next

/-! ## Beginning and ending -/

/-- Reads the header block, after dropping what is cached of the file if the session is locked. -/
def start : SessionM Unit := do
  let (session, _) ← get
  if session.locked then onCache (Cache.release session.file .flush)
  load .header .null true
  let (_, header) ← holding .header
  let p := Pointers.read session.layout.format header.image
  update fun s => { s with pointers := p, highWater := p.highWater }

def letGoAll : SessionM Unit := do
  let (session, _) ← get
  session.held.toList.forM fun i => updateCache (·.setPinned i false)
  update fun s => { s with held := {} }

/-- Ends the work of a call that went well: the pointers go into the header block, and the blocks of
the file stay cached or are written back. -/
def complete (mode : EndMode) : SessionM Unit := do
  let (session, _) ← get
  if session.pointersChanged then
    edit .header (session.pointers.write session.layout.format)
    update fun s => { s with pointersChanged := false }
  letGoAll
  if mode = .flush then onCache (Cache.release session.file .flush)
  update fun s => { s with undo := [] }

/-- Puts back what a block was; a failure is kept for the next call. -/
def undoOne (file : FileId) (u : Undo) : SessionM Unit := do
  match u.image with
  | none => updateCache (·.forget file u.pos)
  | some image =>
    match ← attempt (onCache (Cache.restore file u.pos image)) with
    | .ok () => pure ()
    | .error e => updateCache (·.park file e)

/-- Puts back all blocks that the call changed. Under the lock they are also written back; what
cannot be written stays in the cache. -/
def rollBack : SessionM Unit := do
  letGoAll
  let (session, _) ← get
  update fun s => { s with undo := [] }
  session.undo.forM (undoOne session.file)
  if session.locked then
    let _ ← attempt (onCache (Cache.release session.file .flush))

def unlock (store : Store) : SessionM Unit := do
  let (session, _) ← get
  update fun s => { s with locked := false }
  if session.locked then onCache (Cache.onDisk store.unlock)

/-- Begins, carries out the program, and rolls back if that fails. -/
def body {α : Type} (store : Store) (program : Program α) : SessionM α := do
  match ← attempt (do start; perform program) with
  | .ok a => return a
  | .error e =>
    rollBack
    let _ ← attempt (unlock store)
    throw e

/-- Ends a call that went well so far. If its changes cannot be completed they are taken back. -/
def finish (store : Store) (mode : EndMode) : SessionM (Except Error Unit) := do
  let completed ← attempt (complete mode)
  if completed matches .error _ then rollBack
  let unlocked ← attempt (unlock store)
  return firstError completed unlocked

/-- Runs a computation in a session that ends with it. -/
def alone {α : Type} (session : Session) (x : SessionM α) : CacheM α := fun below =>
  match x (session, below) with
  | .ok a (_, below) => .ok a below
  | .error e (_, below) => .error e below

/-- One call on a file: carries out a program in a session of its own. An error is thrown if the
program was not carried out. Otherwise the value of the program comes with the outcome of the end
of the session, by which its changes may still have been taken back. -/
def transact {α : Type} (file : FileId) (layout : Layout) (locked : Bool) (mode : EndMode)
    (program : Program α) : CacheM (α × Except Error Unit) := do
  match ← Cache.takePending file with
  | some e => throw e
  | none =>
    let store ← Cache.storeOf file
    if locked then Cache.onDisk store.lock
    alone { file := file, layout := layout, locked := locked } do
      let a ← body store program
      let ended ← finish store mode
      return (a, ended)

end Session

end PagedIndex
