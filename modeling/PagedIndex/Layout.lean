import PagedIndex.Basic

/-!
# Block geometry

Every block of a file has one layout, which is fixed when the file is opened.
-/

namespace PagedIndex

/-- Key length, block size and format of a file. -/
structure Layout where
  keyLength : Nat
  blockSize : Nat
  format : Format
  deriving DecidableEq, Inhabited

namespace Layout

variable (l : Layout)

def positionWidth : Nat := l.format.positionWidth

/-- Size of an entry that is written whole. -/
def entrySize : Nat := l.keyLength + l.positionWidth

def separatorSize : Nat := l.entrySize + l.positionWidth

def endMark : UInt8 := l.format.endMark

/-- Bytes that the end mark needs in every block; a full modern block goes without. -/
def endSize : Nat :=
  match l.format with
  | .modern => 0
  | .legacy => 1

def maxRecord : Nat := l.format.maxPosition

/-- Offset of the first separator of a branch. -/
def branchStart : Nat := 1 + l.positionWidth

/-- Whether `used` bytes, the tag among them, fit in a block. -/
def fits (used : Nat) : Bool := used + l.endSize ≤ l.blockSize

/-- A block size that three separators fit in. -/
def minBlockSize : Nat := l.branchStart + 3 * l.separatorSize + 1

end Layout

end PagedIndex
