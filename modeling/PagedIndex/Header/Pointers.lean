import PagedIndex.Block.Image
import PagedIndex.Field.Position

/-!
# Chain pointers

The four links in the header block that change while a file is used.

## Main definitions

* `Pointers.read` — the pointers of a header block.
* `Pointers.write` — changes them in place.
-/

namespace PagedIndex

/-- The heads of the chains of a file, the root of its tree and the mark of its last block. -/
structure Pointers where
  /-- First block of the chain of deleted blocks. -/
  freeHead : BlockPos := .null
  /-- First block of the list of free record positions. -/
  slotHead : BlockPos := .null
  /-- Root of the tree. -/
  root : BlockPos := .null
  /-- Last block ever added to the file. -/
  highWater : BlockPos := .null
  deriving DecidableEq, Inhabited

namespace Pointers

/-- Where the pointers stand in the header: four fields behind the tag. -/
def offsets (format : Format) : List Nat :=
  (List.range 4).map fun i => 1 + i * format.positionWidth

/-- The pointers in the order they are stored in. -/
def fields (p : Pointers) : List BlockPos := [p.freeHead, p.slotHead, p.root, p.highWater]

def read (format : Format) (image : Bytes) : Pointers :=
  let field (i : Nat) : BlockPos :=
    ⟨Position.decode format (image.drop (1 + i * format.positionWidth))⟩
  ⟨field 0, field 1, field 2, field 3⟩

/-- Writes fields one after the other; those in front of one that cannot be written stay. -/
def writeFields (format : Format) : List (Nat × BlockPos) → Edit
  | [], image => (image, .ok ())
  | (offset, pos) :: rest, image =>
    match Position.encode format pos.offset with
    | .error e => (image, .error e)
    | .ok field => writeFields format rest (Bytes.patch image offset field)

def write (format : Format) (p : Pointers) : Edit :=
  writeFields format ((offsets format).zip p.fields)

end Pointers

end PagedIndex
