import PagedIndex.Block.Image
import PagedIndex.Entry

/-!
# Leaf blocks

The tag `V`, then the entries in order, each behind the one before it.

## Main definitions

* `Leaf.encodedSize`, `Leaf.fits`, `Leaf.fittingPrefix` — how much of a block entries take.
* `Leaf.encode`, `Leaf.decode` — the image of a leaf.
-/

namespace PagedIndex

namespace Leaf

variable (l : Layout)

def entriesSize : Option Entry → List Entry → Nat
  | _, [] => 0
  | previous, e :: rest => Entry.encodedSize l previous e + entriesSize (some e) rest

/-- Size of a leaf, its tag among it and the end mark not. -/
def encodedSize (entries : List Entry) : Nat := 1 + entriesSize l none entries

def fits (entries : List Entry) : Bool := l.fits (encodedSize l entries)

/-- How many of `entries` fit behind `previous` in a block filled up to `used`. -/
def fittingFrom : Nat → Option Entry → List Entry → Nat
  | _, _, [] => 0
  | used, previous, e :: rest =>
    let used := used + Entry.encodedSize l previous e
    if l.fits used then fittingFrom used (some e) rest + 1 else 0

/-- How many entries from the front fit in one block. -/
def fittingPrefix (entries : List Entry) : Nat := fittingFrom l 1 none entries

def encodeEntries : Option Entry → List Entry → Except Error Bytes
  | _, [] => .ok []
  | previous, e :: rest => do
    let front ← Entry.encode l previous e
    let back ← encodeEntries (some e) rest
    return front ++ back

def encode (size : Nat) (entries : List Entry) : Except Error Bytes := do
  let body ← encodeEntries l none entries
  BlockImage.close l size (BlockKind.leaf.tag :: body)

/-- Reads entries up to the end mark or the end of the block. Every entry takes a byte at least,
so `fuel` entries are all if `b` has no more bytes than that. -/
def decodeEntries : Nat → Option Entry → Bytes → Except Error (List Entry)
  | 0, _, _ | _ + 1, _, [] =>
    match l.format with
    | .modern => .ok []
    | .legacy => .error (.corrupt .leafWithoutEnd)
  | fuel + 1, previous, b@(next :: _) =>
    if next = l.endMark then .ok []
    else do
      let (e, used) ← Entry.decode l previous b
      let rest ← decodeEntries fuel (some e) (b.drop used)
      return e :: rest

def decode (image : Bytes) : Except Error (List Entry) := do
  BlockImage.expect .leaf image
  let contents := (BlockImage.used l image).drop 1
  decodeEntries l contents.length none contents

end Leaf

end PagedIndex
