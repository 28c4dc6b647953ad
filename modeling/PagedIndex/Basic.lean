/-!
# Positions, formats and block kinds

The vocabulary that every other module shares.

## Main definitions

* `Bytes` — keys, fields and block images.
* `BlockPos` — where a block starts in its file; position 0 is the header and the null link.
* `Format` — how entries and positions are written in a file.
* `BlockKind` — what a block holds, told by its first byte.
* `Role` — the parts that blocks play while one call runs.
-/

namespace PagedIndex

/-- A string of bytes: a key, a field or the image of a block. -/
abbrev Bytes := List UInt8

namespace Bytes

/-- The most bytes that room can be made for at once. -/
def maxLength : Nat := 0x7FFFFFFFFFFFFFFF

/-- Overwrites the bytes of `b` from `offset` on with `field`. -/
def patch (b : Bytes) (offset : Nat) (field : Bytes) : Bytes :=
  b.take offset ++ field ++ b.drop (offset + field.length)

/-- Cuts `b` to `size` bytes, or extends it to them with `fill`. -/
def resize (b : Bytes) (size : Nat) (fill : UInt8) : Bytes :=
  b.take size ++ List.replicate (size - b.length) fill

theorem length_resize (b : Bytes) (size : Nat) (fill : UInt8) :
    (resize b size fill).length = size := by
  simp only [resize, List.length_append, List.length_take, List.length_replicate]
  omega

/-- Whether `b` has fewer than `n` bytes; looks at no more than `n` of them. -/
def shorterThan : Bytes → Nat → Bool
  | _, 0 => false
  | [], _ + 1 => true
  | _ :: b, n + 1 => shorterThan b n

theorem shorterThan_eq_decide (b : Bytes) (n : Nat) : shorterThan b n = decide (b.length < n) := by
  fun_induction shorterThan b n with
  | case1 => simp
  | case2 => simp
  | case3 _ b n ih => simp [ih]

/-- The first `n` bytes of `b`; all of `b`, and no copy of it, if it is not longer. -/
def front (b : Bytes) (n : Nat) : Bytes := if shorterThan b (n + 1) then b else b.take n

theorem front_eq_take (b : Bytes) (n : Nat) : front b n = b.take n := by
  unfold front
  rw [shorterThan_eq_decide]
  split
  · next h => exact (List.take_of_length_le (by simpa [Nat.lt_succ_iff] using h)).symm
  · rfl

def ofText (s : String) : Bytes := s.toUTF8.data.toList

end Bytes

/-! ## Limits -/

def maxKeyLength : Nat := 255

/-- Most branch levels a descent goes through. -/
def maxLevels : Nat := 32

def defaultBlockSize : Nat := 1024

/-- Largest block size a header may declare, and the most bytes read to find a header. -/
def maxBlockSize : Nat := 0xFF00

/-- Fewest bytes that can hold a header. -/
def minHeaderBytes : Nat := 512

def defaultBuffers : Nat := 100

/-- Fewest buffers a cache may have, one for each role. -/
def minBuffers : Nat := 4

/-- Longest prefix that two keys of a leaf are recorded to share. It keeps the count byte below
the end mark of modern blocks. -/
def maxShared : Nat := 254

/-! ## Bytes with a meaning -/

/-- Fills unused block space. -/
def filler : UInt8 := 0xFF

/-- Ends the fixed part and the text name of a header. -/
def endOfRecord : UInt8 := 0xFA

/-- Pads keys and number fields. -/
def blank : UInt8 := 0x20

/-! ## Block positions -/

/-- The offset in the file at which a block starts. -/
structure BlockPos where
  offset : Nat
  deriving DecidableEq, Inhabited

namespace BlockPos

/-- The header block, which doubles as the end of every chain. -/
def null : BlockPos := ⟨0⟩

/-- Whether a link ends its chain. -/
def isNull (p : BlockPos) : Bool := p.offset == 0

def following (p : BlockPos) (blockSize : Nat) : BlockPos := ⟨p.offset + blockSize⟩

def text (p : BlockPos) : String :=
  if p.isNull then "null" else "@" ++ toString p.offset

end BlockPos

/-! ## Formats -/

/-- How entries and positions are written, chosen once from the version of the header. -/
inductive Format where
  /-- From version 9 on: binary positions, front-compressed leaves. -/
  | modern
  /-- Before version 9: decimal positions, whole entries. -/
  | legacy
  deriving DecidableEq, Inhabited

namespace Format

def ofVersion (version : Nat) : Format := if version ≥ 9 then modern else legacy

def newVersion : Format → Nat
  | modern => 10
  | legacy => 8

/-- The byte that ends the entries of a block. -/
def endMark : Format → UInt8
  | modern => filler
  | legacy => endOfRecord

def positionWidth : Format → Nat
  | modern => 6
  | legacy => 9

def maxPosition : Format → Nat
  | modern => 0x7FFFFFFFFFFF
  | legacy => 999999999

def text : Format → String
  | modern => "Modern"
  | legacy => "Legacy"

end Format

/-! ## Block kinds -/

/-- What a block holds. -/
inductive BlockKind where
  | header
  | branch
  | leaf
  | slots
  | deleted
  deriving DecidableEq, Inhabited

namespace BlockKind

def tag : BlockKind → UInt8
  | header => 0x49
  | branch => 0x55
  | leaf => 0x56
  | slots => 0x46
  | deleted => 0x44

def ofTag? (b : UInt8) : Option BlockKind :=
  [header, branch, leaf, slots, deleted].find? (·.tag == b)

def text : BlockKind → String
  | header => "Header"
  | branch => "Branch"
  | leaf => "Leaf"
  | slots => "Slots"
  | deleted => "Deleted"

end BlockKind

/-! ## Roles -/

/-- The parts blocks play in a call; each part holds at most one block at a time. -/
inductive Role where
  /-- The header block. -/
  | header
  /-- The block being searched or changed. -/
  | current
  /-- Its parent. -/
  | parent
  /-- Its brother, or a block being taken or given back. -/
  | sibling
  deriving DecidableEq, Inhabited

def Role.text : Role → String
  | header => "Header"
  | current => "Current"
  | parent => "Parent"
  | sibling => "Sibling"

end PagedIndex
