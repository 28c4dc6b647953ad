import PagedIndex.Index.Reading
import PagedIndex.Index.Updates

/-!
# Tables of open files

Files are known by positive handles, and every call answers a status number: what the call answers
by itself if it goes well, and the negative code of the error if not.

## Main definitions

* `Table.openFile` — opens a file under a handle that is not in use.
* `Table.status` — runs a call on the file of a handle.
* `Table.close`, `Table.kill` — end with a file and its handle.
-/

namespace PagedIndex

/-- Open files by handle. -/
structure Table where
  files : List (Int × Index) := []
  /-- The handle given out last. -/
  latest : Int := 0

abbrev TableM := StateM (Table × Workspace)

namespace Table

def maxHandle : Int := 2147483647

/-- The handle to try after another one. -/
def successor (handle : Int) : Int := if handle ≥ maxHandle then 1 else handle + 1

def file? (t : Table) (handle : Int) : Option Index := t.files.lookup handle

/-- The first of the `tries` handles after `handle` that is not in use, or else the one after
them. -/
def unusedAfter (t : Table) : Nat → Int → Int
  | 0, handle => successor handle
  | tries + 1, handle =>
    let next := successor handle
    if (t.file? next).isNone then next else t.unusedAfter tries next

/-- A handle that is not in use. One of as many handles as there are files and one more is free. -/
def freshHandle (t : Table) : Int := t.unusedAfter t.files.length t.latest

def put (t : Table) (handle : Int) (ix : Index) : Table :=
  { t with files := t.files.map fun (h, old) => if h = handle then (h, ix) else (h, old) }

def erase (t : Table) (handle : Int) : Table :=
  { t with files := t.files.filter (·.1 != handle) }

def openFile (name : String) (options : OpenOptions) (cell : Nat) : TableM Int :=
  fun (t, w) =>
    match Index.openFile name options cell w with
    | .ok ix w =>
      let handle := t.freshHandle
      (handle, { files := (handle, ix) :: t.files, latest := handle }, w)
    | .error e w => (e.code, t, w)

def run {α : Type} (handle : Int) (x : IndexM α) : TableM (Except Error α) := fun (t, w) =>
  match t.file? handle with
  | none => (.error .invalidHandle, t, w)
  | some ix =>
    match x (ix, w) with
    | .ok a (ix, w) => (.ok a, t.put handle ix, w)
    | .error e (ix, w) => (.error e, t.put handle ix, w)

/-- Runs a call on the file of a handle; answers its status number. -/
def status {α : Type} (handle : Int) (x : IndexM α) (code : α → Int) : TableM Int := do
  match ← run handle x with
  | .ok a => return code a
  | .error e => return e.code

def finish (handle : Int) (x : IndexM Unit) : TableM Int := do
  let answer ← status handle x fun _ => 0
  modify fun (t, w) => (t.erase handle, w)
  return answer

def close (handle : Int) : TableM Int := finish handle Index.close

def kill (handle : Int) : TableM Int := finish handle Index.kill

def find (handle : Int) (key : Bytes) : TableM Int := status handle (Index.find key) KeyState.code

def findLast (handle : Int) (start : Bytes) : TableM Int :=
  status handle (Index.findLast start) KeyState.code

def next (handle : Int) : TableM Int := status handle Index.next KeyState.code

def previous (handle : Int) : TableM Int := status handle Index.previous KeyState.code

def insert (handle : Int) (key : Bytes) : TableM Int :=
  status handle (Index.insert key) InsertOutcome.code

def delete (handle : Int) (key : Bytes) (byPosition : Bool) : TableM Int :=
  status handle (Index.delete key byPosition) DeleteOutcome.code

def reserve (handle : Int) : TableM Int := status handle Index.reserve ReserveOutcome.code

def release (handle : Int) : TableM Int := status handle Index.release ReleaseOutcome.code

def flush (handle : Int) : TableM Int := status handle Index.flush fun _ => 0

def textName (t : Table) (handle : Int) : Except Error String :=
  match t.file? handle with
  | some ix => .ok ix.textName
  | none => .error .invalidHandle

end Table

end PagedIndex
