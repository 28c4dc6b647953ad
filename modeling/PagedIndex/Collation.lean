import PagedIndex.Basic

/-!
# Collations

A collation ranks every byte. Keys compare byte by byte on the ranks.

## Main definitions

* `Collation.compare` — the order of keys.
* `Collation.highest`, `Collation.lowest` — bytes that no byte ranks above, or below.
* `Collation.nextAbove` — the byte that ranks next above another.
-/

namespace PagedIndex

/-- How the bytes of keys are ranked. -/
inductive Collation where
  /-- By their values. -/
  | binary
  /-- By a table. -/
  | table (ranks : Vector UInt8 256)
  deriving Inhabited

namespace Collation

/-- ASCII order in which the letters of both cases rank alike. -/
def caseInsensitive : Collation :=
  .table (Vector.ofFn fun b =>
    if 0x61 ≤ b.val ∧ b.val ≤ 0x7A then UInt8.ofNat (b.val - 0x20) else UInt8.ofNat b.val)

/-- Whether bytes rank by their values. -/
def isBinary : Collation → Bool
  | binary => true
  | table _ => false

def weight : Collation → UInt8 → UInt8
  | binary, b => b
  | table ranks, b => ranks.get ⟨b.toNat, b.toNat_lt⟩

/-- The order of two keys; a key that runs out first comes first. -/
def compare (c : Collation) : Bytes → Bytes → Ordering
  | [], [] => .eq
  | [], _ :: _ => .lt
  | _ :: _, [] => .gt
  | x :: xs, y :: ys =>
    match Ord.compare (c.weight x) (c.weight y) with
    | .eq => c.compare xs ys
    | other => other

def allBytes : List UInt8 := (List.range 256).map UInt8.ofNat

/-- A byte that none ranks above, 0xFF if it is one. -/
def highest (c : Collation) : UInt8 :=
  allBytes.foldl (fun best b => if c.weight b > c.weight best then b else best) 0xFF

/-- A byte that none ranks below, 0x00 if it is one. -/
def lowest (c : Collation) : UInt8 :=
  allBytes.foldl (fun best b => if c.weight b < c.weight best then b else best) 0x00

/-- The byte ranked next above `b`, the highest when none is between. -/
def nextAbove (c : Collation) (b : UInt8) : UInt8 :=
  match c with
  | .binary => if b = 0xFF then 0xFF else b + 1
  | .table _ =>
    allBytes.foldl
      (fun best x => if c.weight x > c.weight b && c.weight x < c.weight best then x else best)
      c.highest

end Collation

end PagedIndex
