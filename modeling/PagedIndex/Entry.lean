import PagedIndex.Collation
import PagedIndex.Field.Position
import PagedIndex.Layout

/-!
# Entries

An entry is a key with the record position it indexes. In a modern leaf an entry that follows
another is written as the length of the prefix its key shares with the key before, the rest of
the key, and the position; all other entries are written whole.

## Main definitions

* `Entry.compare` — entries in key order, equal keys by position if asked.
* `Entry.encode`, `Entry.decode`, `Entry.encodedSize` — the written form.
* `Key.normalize` — brings a caller's key to the key length of a file.
-/

namespace PagedIndex

/-- A key and the record position it stands for. -/
structure Entry where
  key : Bytes
  record : Nat
  deriving DecidableEq, Inhabited

namespace Key

def commonPrefix : Bytes → Bytes → Nat
  | x :: xs, y :: ys => if x = y then commonPrefix xs ys + 1 else 0
  | _, _ => 0

/-- Length of the shared prefix that is recorded. -/
def shared (previous key : Bytes) : Nat := min (commonPrefix previous key) maxShared

/-- Pads `raw` to the key length, or cuts it; without `truncate` only blanks may be cut off. -/
def normalize (raw : Bytes) (keyLength : Nat) (pad : UInt8) (truncate : Bool) :
    Except Error Bytes :=
  if raw.length > keyLength && !truncate && (raw.drop keyLength).any (· != blank) then
    .error (.invalidKey (.tooLong raw.length keyLength))
  else
    .ok (Bytes.resize raw keyLength pad)

end Key

namespace Entry

/-- Orders entries by key and, if `exact`, entries of equal keys by position. -/
def compare (c : Collation) (exact : Bool) (a b : Entry) : Ordering :=
  match c.compare a.key b.key with
  | .eq => if exact then Ord.compare a.record b.record else .eq
  | other => other

variable (l : Layout)

/-- The entry before, if entries written behind it are compressed against it. -/
def base? (previous : Option Entry) : Option Entry :=
  match l.format with
  | .modern => previous
  | .legacy => none

def encodedSize (previous : Option Entry) (e : Entry) : Nat :=
  match base? l previous with
  | some p => 1 + l.entrySize - Key.shared p.key e.key
  | none => l.entrySize

def encode (previous : Option Entry) (e : Entry) : Except Error Bytes := do
  let record ← Position.encode l.format e.record
  match base? l previous with
  | some p =>
    let shared := Key.shared p.key e.key
    return UInt8.ofNat shared :: (e.key.drop shared ++ record)
  | none => return e.key ++ record

/-- Reads an entry at the front of `b` whose key begins with the first `shared` bytes of `start`;
these are not written. -/
def decodeAfter (shared : Nat) (start b : Bytes) : Except Error (Entry × Nat) :=
  let rest := l.keyLength - shared
  let size := rest + l.positionWidth
  let written := b.take size
  if written.length < size then .error (.corrupt .entryPastEnd)
  else if start.length < shared then .error .outOfRange
  else
    let key := start.take shared ++ written.take rest
    .ok (⟨key, Position.decode l.format (written.drop rest)⟩, size)

/-- Reads an entry behind `previous` at the front of `b`, with the number of bytes it takes. -/
def decode (previous : Option Entry) (b : Bytes) : Except Error (Entry × Nat) :=
  match base? l previous with
  | none => decodeAfter l 0 [] b
  | some p =>
    match b with
    | [] => .error (.corrupt .entryPastEnd)
    | count :: body =>
      if count.toNat > l.keyLength then
        .error (.corrupt (.sharedTooLong count.toNat l.keyLength))
      else (decodeAfter l count.toNat p.key body).map fun (e, used) => (e, used + 1)

end Entry

end PagedIndex
