import PagedIndex.Index.Basic
import PagedIndex.Tree.Delete
import PagedIndex.Tree.Insert

/-!
# Updates

Entries are added and removed, and record positions are reserved and released. The cursor and the
record cell follow only when the call has ended well.
-/

namespace PagedIndex

namespace Index

/-- The entry of a key and the record position in the cell, if the file can hold it. -/
def newEntry (key : Bytes) : IndexM Entry := do
  let key ← normalize key blank
  let l := (← self).tree.layout
  if key.head? = some l.endMark then throw (.invalidKey (.startsWithEndMark l.endMark))
  let record ← record
  if record > l.maxRecord then throw (.invalidKey (.recordOutOfRange record))
  return ⟨key, record⟩

/-- Adds the record position in the cell under a key, and moves to the new entry. -/
def insert (key : Bytes) : IndexM InsertOutcome := do
  requireWritable
  let e ← newEntry key
  let outcome ← complete ((← self).tree.insert e)
  if outcome = .inserted then setCursor (Cursor.land e .null)
  return outcome

/-- Removes an entry and moves next to its place. It is the first one of the key, or with
`byPosition` the one whose record position is in the cell. -/
def deleteEntry (target : Entry) (exact : Bool) : IndexM DeleteOutcome := do
  let t := (← self).tree
  match ← complete (t.delete target exact) with
  | some e =>
    setRecord e.record
    setCursor (Cursor.park .between e)
    return .deleted
  | none =>
    let record := if exact then target.record else t.layout.maxRecord
    setCursor (Cursor.park .between ⟨target.key, record⟩)
    return .notFound

/-- Removes an entry of a key, or with an empty key the entry that the cursor is on. -/
def delete (key : Bytes) (byPosition : Bool) : IndexM DeleteOutcome := do
  requireWritable
  if key.isEmpty then
    let c := (← self).cursor
    match c.state, c.current with
    | .onKey, some current => deleteEntry current true
    | _, _ => return .notFound
  else
    let key ← normalize key blank
    let record ← if byPosition then record else pure 0
    deleteEntry ⟨key, record⟩ byPosition

/-- Takes a free record position into the cell. -/
def reserve : IndexM ReserveOutcome := do
  requireWritable
  let ix ← self
  if ix.header.fixedRecordLength.isNone then return .noFreeSlot
  else
    match ← complete (Program.popSlot ix.tree.layout) with
    | some record =>
      setRecord record
      return .reserved record
    | none => return .noFreeSlot

/-- Lists the record position in the cell for reuse. -/
def release : IndexM ReleaseOutcome := do
  requireWritable
  let ix ← self
  if ix.header.fixedRecordLength.isNone then return .notFixed
  else
    complete (Program.pushSlot ix.tree.layout (← record))
    return .released

/-- Writes back all that is cached of the file, and makes sure that it stays. -/
def flush : IndexM Unit := do
  let ((), ended) ← call .flush (return ())
  settle ended
  let ix ← self
  onWorkspace (Workspace.onDisk ix.store.sync)

end Index

end PagedIndex
