import PagedIndex.Block.Image
import PagedIndex.Entry

/-!
# Branch blocks

The tag `U`, the link to the first child, then separators, each with the link to the child behind
it. Separators are entries of the index and are written whole.
-/

namespace PagedIndex

/-- A branch: child `i` holds the entries in front of separator `i`. -/
structure Branch where
  /-- The child in front of all separators. -/
  first : BlockPos
  /-- The separators in order, each with the child behind it. -/
  separators : List (Entry × BlockPos)
  deriving DecidableEq, Inhabited

namespace Branch

variable (l : Layout)

def entries (b : Branch) : List Entry := b.separators.map Prod.fst

def children (b : Branch) : List BlockPos := b.first :: b.separators.map Prod.snd

/-- The child in front of separator `i`, or behind the last one. -/
def child? (b : Branch) (i : Nat) : Option BlockPos := b.children[i]?

def lastChild (b : Branch) : BlockPos := (b.separators.getLast?.map Prod.snd).getD b.first

/-- Size of a branch, its tag among it and the end mark not. -/
def encodedSize (b : Branch) : Nat := l.branchStart + b.separators.length * l.separatorSize

def fits (b : Branch) : Bool := l.fits (b.encodedSize l)

/-- The written form of a separator and the link behind it. Its key has to be of key length. -/
def encodeSeparator (s : Entry × BlockPos) : Except Error Bytes := do
  if s.1.key.length ≠ l.keyLength then throw .outOfRange
  let record ← Position.encode l.format s.1.record
  let link ← Position.encode l.format s.2.offset
  return s.1.key ++ (record ++ link)

def encodeSeparators : List (Entry × BlockPos) → Except Error Bytes
  | [] => .ok []
  | s :: rest => do
    let front ← encodeSeparator l s
    let back ← encodeSeparators rest
    return front ++ back

def encode (size : Nat) (b : Branch) : Except Error Bytes := do
  let first ← Position.encode l.format b.first.offset
  let body ← encodeSeparators l b.separators
  BlockImage.close l size (BlockKind.branch.tag :: (first ++ body))

/-- Reads separators up to the end mark or the end of the block. Every separator takes a byte at
least, so `fuel` separators are all if `b` has no more bytes than that. -/
def decodeSeparators : Nat → Bytes → Except Error (List (Entry × BlockPos))
  | 0, _ | _ + 1, [] =>
    match l.format with
    | .modern => .ok []
    | .legacy => .error (.corrupt .branchWithoutEnd)
  | fuel + 1, b@(next :: _) =>
    if next = l.endMark then .ok []
    else
      let written := b.take l.separatorSize
      if written.length < l.separatorSize then .error (.corrupt .branchEntryPastEnd)
      else do
        let positions := written.drop l.keyLength
        let e : Entry := ⟨written.take l.keyLength, Position.decode l.format positions⟩
        let link := Position.decode l.format (positions.drop l.positionWidth)
        let rest ← decodeSeparators fuel (b.drop l.separatorSize)
        return (e, ⟨link⟩) :: rest

def decode (image : Bytes) : Except Error Branch := do
  BlockImage.expect .branch image
  let contents := BlockImage.used l image
  if Bytes.shorterThan contents l.branchStart then throw (.corrupt .branchTooShort)
  let body := contents.drop l.branchStart
  let separators ← decodeSeparators l body.length body
  return ⟨⟨Position.decode l.format (contents.drop 1)⟩, separators⟩

end Branch

end PagedIndex
