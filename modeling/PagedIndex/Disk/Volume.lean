import PagedIndex.Disk.Contents
import PagedIndex.Error

/-!
# Volumes

A volume is the bytes behind a file or a memory area, with a log of the accesses to it. Accesses
can be refused: which ones is a function of the sort of access and of how many of that sort came
before.

## Main definitions

* `Volume.ask` — one access is made; it is counted and logged, and may be refused.
* `Volume.hasRoom` — whether a write fits.
-/

namespace PagedIndex

inductive Access where
  | read
  | write
  | lock
  | unlock
  | sync
  | remove
  deriving DecidableEq, Inhabited

namespace Access

def error : Access → IoCause → Error
  | lock, cause | unlock, cause => .lock cause
  | _, cause => .io cause

end Access

structure AccessNote where
  access : Access
  offset : Nat
  length : Nat
  refused : Bool
  deriving DecidableEq

/-- How many accesses of each sort were made. -/
structure Tally where
  reads : Nat := 0
  writes : Nat := 0
  locks : Nat := 0
  unlocks : Nat := 0
  syncs : Nat := 0
  removes : Nat := 0
  deriving DecidableEq, Inhabited

namespace Tally

def count (t : Tally) : Access → Nat
  | .read => t.reads
  | .write => t.writes
  | .lock => t.locks
  | .unlock => t.unlocks
  | .sync => t.syncs
  | .remove => t.removes

def bump (t : Tally) : Access → Tally
  | .read => { t with reads := t.reads + 1 }
  | .write => { t with writes := t.writes + 1 }
  | .lock => { t with locks := t.locks + 1 }
  | .unlock => { t with unlocks := t.unlocks + 1 }
  | .sync => { t with syncs := t.syncs + 1 }
  | .remove => { t with removes := t.removes + 1 }

end Tally

/-- The bytes behind a file or a memory area. -/
structure Volume where
  contents : Contents := {}
  /-- The accesses, the latest first. -/
  log : List AccessNote := []
  tally : Tally := {}
  /-- Why the access of a sort with so many of that sort before it is refused. -/
  refusal : Access → Nat → Option IoCause := fun _ _ => none
  /-- How many bytes there is room for. -/
  limit : Option Nat := none
  deriving Inhabited

namespace Volume

/-- Why a write past the room of a volume fails. -/
def fullCause : IoCause := .described .other "disk full"

/-- Makes an access: counts and logs it, and tells whether it is refused. -/
def ask (v : Volume) (access : Access) (offset length : Nat) : Volume × Option IoCause :=
  let refused := v.refusal access (v.tally.count access)
  ({ v with
      tally := v.tally.bump access
      log := ⟨access, offset, length, refused.isSome⟩ :: v.log }, refused)

def hasRoom (v : Volume) (offset length : Nat) : Bool :=
  match v.limit with
  | none => true
  | some limit => offset + length ≤ limit

end Volume

end PagedIndex
