import PagedIndex.Header.Basic
import PagedIndex.Index.Options
import PagedIndex.Index.Workspace
import PagedIndex.Tree.Cursor

/-!
# Open index files

## Main definitions

* `Index` — an open file with its cursor.
* `Index.openStore`, `Index.openFile` — open a file.
* `Index.call` — one call on an open file.
* `Index.close`, `Index.kill`, `Index.drop` — end with it.
-/

namespace PagedIndex

/-- An open index file. -/
structure Index where
  /-- The number of its cache. -/
  cache : Nat
  /-- Its number in the cache. -/
  file : FileId
  store : Store
  /-- The header as it was when the file was opened. -/
  header : Header
  tree : Tree
  /-- Whether long keys are cut instead of rejected. -/
  truncate : Bool
  mode : OpenMode
  cursor : Cursor := {}
  /-- The number of its record cell. -/
  cell : Nat
  deriving Inhabited

/-- Computations on an open file; what was done before an error stays done. -/
abbrev IndexM := EStateM Error (Index × Workspace)

/-! ## Opening -/

namespace OpenOptions

/-- The text name of a new file when none is asked for: that of the file, as a text. -/
def defaultTextName (storeName : Option String) : String :=
  match storeName with
  | some name => FileName.withExtension name "txt"
  | none => ""

/-- The header of a new file. It has to be one that can be read back. -/
def newHeader (options : OpenOptions) (storeName : Option String) : Except Error Header := do
  let header := { Header.new options.keyLength options.format with
    blockSize := options.blockSize
    duplicates := options.duplicates == .allow
    fixedRecordLength := options.fixedRecordLength
    textName := options.textName.getD (defaultTextName storeName) }
  let _ ← Header.parse (← header.encode)
  return header

def admits (options : OpenOptions) (header : Header) : Except Error Unit := do
  if options.keyLength ≠ 0 && options.keyLength ≠ header.keyLength then
    throw (.badKeyLength header.keyLength options.keyLength)
  match header.fixedRecordLength with
  | none => pure ()
  | some length =>
    if options.fixedRecordLength ≠ some length then
      throw (.badRecordLength length (options.fixedRecordLength.getD 0))
  if header.duplicates && options.duplicates == .forbid then throw .duplicatesForbidden

end OpenOptions

namespace Index

def createOn (store : Store) (options : OpenOptions) : DiskM Unit := do
  let image ← settle do (← options.newHeader store.name).encode
  store.write 0 image

/-- Reads the header of a file and checks it against what is asked for. -/
def readHeader (store : Store) (options : OpenOptions) : DiskM Header := do
  let front ← store.read 0 maxBlockSize
  settle do
    let header ← Header.parse front
    options.admits header
    return header

/-- Opens the file on a store, after making it if asked to. -/
def openStore (store : Store) (options : OpenOptions) (cell : Nat) : WorkspaceM Index := do
  if options.mode = .create then Workspace.onDisk (createOn store options)
  let header ← Workspace.onDisk (readHeader store options)
  let cache := options.cache.getD Workspace.commonCache
  let file ← Workspace.onCache cache do
    let below ← get
    let (file, c) := below.cache.register store
    Cache.update fun _ => c
    return file
  return {
    cache := cache
    file := file
    store := store
    header := header
    tree := ⟨header.layout, options.collation, header.duplicates || options.duplicates == .allow⟩
    truncate := options.truncate
    mode := options.mode
    cell := cell }

/-- The file name of an index: without an extension it gets `isi`. -/
def fileName (name : String) : String :=
  if (FileName.extension? name).isSome then name else FileName.withExtension name "isi"

/-- Opens an index by its name. A file to be made is emptied first. -/
def openFile (name : String) (options : OpenOptions) (cell : Nat) : WorkspaceM Index := do
  let name := fileName name
  let store ← Workspace.onDisk <|
    if options.mode = .create then Store.createFile name
    else Store.openFile name options.mode.writable
  openStore store options cell

/-! ## Calls -/

def onWorkspace {α : Type} (x : WorkspaceM α) : IndexM α := fun (ix, w) =>
  match x w with
  | .ok a w => .ok a (ix, w)
  | .error e w => .error e (ix, w)

def self : IndexM Index := do return (← get).1

def record : IndexM Nat := do
  let (ix, w) ← get
  return w.cell ix.cell

def setRecord (record : Nat) : IndexM Unit := modify fun (ix, w) => (ix, w.setCell ix.cell record)

def setCursor (c : Cursor) : IndexM Unit := modify fun (ix, w) => ({ ix with cursor := c }, w)

/-- One call on the file: the value of the program with the outcome of the end of the call. -/
def call {α : Type} (mode : EndMode) (program : Program α) : IndexM (α × Except Error Unit) := do
  let ix ← self
  onWorkspace <| Workspace.onCache ix.cache <|
    Session.transact ix.file ix.tree.layout ix.mode.locked mode program

/-- A call that is nothing unless it also ends well. -/
def complete {α : Type} (program : Program α) : IndexM α := do
  let (a, ended) ← call (← self).mode.endMode program
  settle ended
  return a

def requireWritable : IndexM Unit := do
  if !(← self).mode.writable then throw .readOnly

/-- Brings a caller's key to the key length of the file. -/
def normalize (raw : Bytes) (pad : UInt8) : IndexM Bytes := do
  let ix ← self
  settle (Key.normalize raw ix.tree.layout.keyLength pad ix.truncate)

/-! ## Ending -/

def unregister : IndexM Unit := do
  let ix ← self
  onWorkspace (Workspace.onCache ix.cache (Cache.unregister ix.file))

/-- Writes back what is cached, and gives the file up in any case. -/
def close : IndexM Unit := do
  let flushed ← attempt (call .flush (return ()))
  unregister
  match flushed with
  | .error e => throw e
  | .ok ((), ended) => settle ended

/-- Gives the file up, whether what is cached can be written back or not. -/
def drop : IndexM Unit := do
  let _ ← attempt close

/-- Gives the file up and removes it. A handle that may not do that is dropped. -/
def kill : IndexM Unit := do
  let ix ← self
  if ix.mode.writable then
    unregister
    onWorkspace (Workspace.onDisk ix.store.remove)
  else
    drop
    throw .readOnly

/-- Name of the record file. A name relative to the directory of the index is given from there. -/
def textName (ix : Index) : String :=
  let name := ix.header.textName
  if ix.header.textRelative && !name.toList.any (fun c => c == '/' || c == '\\') then
    match ix.store.name.bind FileName.parent? with
    | some folder => FileName.join folder name
    | none => name
  else name

end Index

end PagedIndex
