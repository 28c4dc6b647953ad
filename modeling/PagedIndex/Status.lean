/-!
# Outcomes of calls

What a call answers when it does not fail, with the status numbers of the integer call surface.
-/

namespace PagedIndex

/-- Where a cursor stands. -/
inductive KeyState where
  /-- On an entry. -/
  | onKey
  /-- In front of the first entry. -/
  | beforeFirst
  /-- Between two entries. -/
  | between
  /-- Behind the last entry. -/
  | afterLast
  deriving DecidableEq, Inhabited

def KeyState.code : KeyState → Int
  | onKey => 1
  | beforeFirst => 2
  | between => 3
  | afterLast => 4

inductive InsertOutcome where
  | inserted
  /-- The key is present and the file forbids duplicates. -/
  | duplicateKey
  /-- The key is present with the same record position. -/
  | duplicateExact
  deriving DecidableEq, Inhabited

def InsertOutcome.code : InsertOutcome → Int
  | inserted => 0
  | duplicateKey => 1
  | duplicateExact => 2

inductive DeleteOutcome where
  | deleted
  | notFound
  deriving DecidableEq, Inhabited

def DeleteOutcome.code : DeleteOutcome → Int
  | deleted => 0
  | notFound => 1

/-- What asking for a freed record position gave. -/
inductive ReserveOutcome where
  | reserved (record : Nat)
  /-- Nothing is free; the caller appends a new record. -/
  | noFreeSlot
  deriving DecidableEq, Inhabited

def ReserveOutcome.code : ReserveOutcome → Int
  | reserved _ => 0
  | noFreeSlot => 1

/-- What handing back a record position did. -/
inductive ReleaseOutcome where
  | released
  /-- The file keeps no list of free record positions. -/
  | notFixed
  deriving DecidableEq, Inhabited

def ReleaseOutcome.code : ReleaseOutcome → Int
  | released => 0
  | notFixed => 1

end PagedIndex
