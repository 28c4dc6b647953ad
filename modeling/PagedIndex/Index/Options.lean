import PagedIndex.Collation
import PagedIndex.Session.Basic

/-!
# How a file is opened
-/

namespace PagedIndex

inductive OpenMode where
  /-- No writes; what others write is seen by every call. -/
  | readOnly
  /-- Every call takes the lock, and gives it and all blocks back. -/
  | shared
  /-- The sole user of the file; blocks stay cached until a flush or the end. -/
  | exclusive
  /-- Makes the file, then like `exclusive`. -/
  | create
  deriving DecidableEq, Inhabited

namespace OpenMode

def writable : OpenMode → Bool
  | readOnly => false
  | _ => true

def locked : OpenMode → Bool
  | shared => true
  | _ => false

/-- What becomes of the blocks of the file at the end of a call. -/
def endMode : OpenMode → EndMode
  | readOnly | shared => .flush
  | exclusive | create => .keep

end OpenMode

/-- What a caller wants of duplicate keys. -/
inductive DuplicatePolicy where
  /-- What the header says. -/
  | fromFile
  | allow
  /-- A file that allows duplicates is not opened. -/
  | forbid
  deriving DecidableEq, Inhabited

/-- What a caller asks for when opening a file. -/
structure OpenOptions where
  mode : OpenMode := .shared
  /-- Key length, 0 to take it from the file. -/
  keyLength : Nat := 0
  duplicates : DuplicatePolicy := .fromFile
  /-- Record length of a file of fixed records. -/
  fixedRecordLength : Option Nat := none
  /-- Record file named in a new file. -/
  textName : Option String := none
  /-- Whether long keys are cut instead of rejected. -/
  truncate : Bool := false
  collation : Collation := .binary
  /-- Format of a new file. -/
  format : Format := .modern
  /-- Block size of a new file. -/
  blockSize : Nat := defaultBlockSize
  /-- The cache to use instead of the common one. -/
  cache : Option Nat := none

end PagedIndex
