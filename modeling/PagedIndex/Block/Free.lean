import PagedIndex.Block.Image
import PagedIndex.Field.Position

/-!
# Deleted blocks and slot blocks

A deleted block has the tag `D` and the link to the next free block. A slot block has the tag `F`,
the link to the next slot block, then free record positions, oldest first.
-/

namespace PagedIndex

namespace Deleted

variable (l : Layout)

/-- Turns a block into a deleted block in front of `next`. The tag is written first, and it stays
when the link cannot be written. -/
def stamp (next : BlockPos) : Edit := fun old =>
  let room := old.length - (1 + l.positionWidth)
  if old.length < 1 + l.positionWidth then (old, .error .outOfRange)
  else
    match Position.encode l.format next.offset with
    | .error e =>
      (BlockKind.deleted.tag :: List.replicate (old.length - 1) filler, .error e)
    | .ok link =>
      if room < l.endSize then (old, .error .outOfRange)
      else (BlockKind.deleted.tag :: (link ++ BlockImage.ending l room), .ok ())

def decode (pos : BlockPos) (image : Bytes) : Except Error BlockPos :=
  if image.head? ≠ some BlockKind.deleted.tag then .error (.corrupt (.notDeletedBlock pos))
  else if Bytes.shorterThan image (1 + l.positionWidth) then .error .outOfRange
  else .ok ⟨Position.decode l.format (image.drop 1)⟩

end Deleted

/-- A block of the list of free record positions. -/
structure Slots where
  next : BlockPos
  records : List Nat
  deriving DecidableEq, Inhabited

namespace Slots

variable (l : Layout)

/-- Size of a slot block, its tag among it and the end mark not. -/
def encodedSize (s : Slots) : Nat := 1 + l.positionWidth * (1 + s.records.length)

def hasRoom (s : Slots) : Bool := l.fits (s.encodedSize l + l.positionWidth)

def encodeRecords : List Nat → Except Error Bytes
  | [] => .ok []
  | r :: rest => do
    let front ← Position.encode l.format r
    let back ← encodeRecords rest
    return front ++ back

def encode (size : Nat) (s : Slots) : Except Error Bytes := do
  let next ← Position.encode l.format s.next.offset
  let body ← encodeRecords l s.records
  BlockImage.close l size (BlockKind.slots.tag :: (next ++ body))

/-- Reads positions up to the end mark or the end of the block. Every position takes a byte at
least, so `fuel` positions are all if `b` has no more bytes than that. -/
def decodeRecords : Nat → Bytes → Except Error (List Nat)
  | 0, _ | _ + 1, [] => .ok []
  | fuel + 1, b@(next :: _) =>
    if next = l.endMark then .ok []
    else
      let written := b.take l.positionWidth
      if written.length < l.positionWidth then .error (.corrupt .slotPastEnd)
      else do
        let rest ← decodeRecords fuel (b.drop l.positionWidth)
        return Position.decode l.format written :: rest

def decode (image : Bytes) : Except Error Slots := do
  BlockImage.expect .slots image
  if Bytes.shorterThan image (1 + l.positionWidth) then throw .outOfRange
  let body := (BlockImage.used l image).drop (1 + l.positionWidth)
  let records ← decodeRecords l l.blockSize body
  return ⟨⟨Position.decode l.format (image.drop 1)⟩, records⟩

end Slots

end PagedIndex
