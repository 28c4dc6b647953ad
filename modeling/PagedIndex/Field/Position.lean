import PagedIndex.Error
import PagedIndex.Field.Decimal

/-!
# Position fields

Record and block positions as they stand in blocks: six bytes, most significant first, in modern
files and nine decimal digits in legacy ones. Both sort bytewise as the positions do, and neither
begins with the end mark of its format.

## Main definitions

* `Position.encode` — writes a position that the format can hold.
* `Position.decode` — reads a field.
-/

namespace PagedIndex

namespace Position

/-- The last `width` bytes of `n`, most significant first. -/
def bigEndian : Nat → Nat → Bytes
  | 0, _ => []
  | width + 1, n => bigEndian width (n / 256) ++ [UInt8.ofNat (n % 256)]

def field (format : Format) (n : Nat) : Bytes :=
  match format with
  | .modern => bigEndian format.positionWidth n
  | .legacy => Decimal.field format.positionWidth n

/-- Writes a position, unless it is past what the format holds. -/
def encode (format : Format) (n : Nat) : Except Error Bytes :=
  if n > format.maxPosition then .error (.invalidKey (.positionTooLarge n format))
  else .ok (field format n)

/-- Reads the field at the front of `b`. A legacy field is the number its digits make up. -/
def decode (format : Format) (b : Bytes) : Nat :=
  let field := b.take format.positionWidth
  match format with
  | .modern => field.foldl (fun n d => n * 256 + d.toNat) 0
  | .legacy => Decimal.value field

end Position

end PagedIndex
