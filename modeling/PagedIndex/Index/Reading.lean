import PagedIndex.Index.Basic
import PagedIndex.Tree.Survey

/-!
# Calls that change no entry

A move that lands on an entry puts its record position into the record cell. The cursor moves as
soon as the place is found, even if the call then does not end well; the cell is set only if it
does. The other calls here walk over the whole file.
-/

namespace PagedIndex

namespace Index

def move (program : Tree → Cursor → Program Cursor) : IndexM KeyState := do
  let ix ← self
  let (cursor, ended) ← call ix.mode.endMode (program ix.tree ix.cursor)
  setCursor cursor
  settle ended
  match cursor.record? with
  | some record => setRecord record
  | none => pure ()
  return cursor.state

/-- Moves to the first entry of a key, which is padded with blanks. An empty key tells the state
and moves nothing. -/
def find (key : Bytes) : IndexM KeyState := do
  if key.isEmpty then return (← self).cursor.state
  else
    let key ← normalize key blank
    move fun t c => t.find c key

/-- Moves to the last entry whose key begins with `start`. -/
def findLast (start : Bytes) : IndexM KeyState := do
  let t := (← self).tree
  let padded ← normalize start t.collation.highest
  move fun t _ => t.findLast padded (min start.length t.layout.keyLength)

def next : IndexM KeyState := move Tree.next

def previous : IndexM KeyState := move Tree.previous

def stats : IndexM IndexStats := do complete ((← self).tree.survey false)

/-- Counts blocks and entries and checks the structure of the file. -/
def verify : IndexM IndexStats := do complete ((← self).tree.survey true)

def outline : IndexM (Option Outline) := do complete (← self).tree.outline

end Index

end PagedIndex
