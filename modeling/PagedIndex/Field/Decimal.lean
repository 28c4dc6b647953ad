import PagedIndex.Basic

/-!
# Decimal fields

Numbers written in ASCII digits, right aligned in a field of fixed width and padded with blanks.

## Main definitions

* `Decimal.field` — writes a number; digits that do not fit on the left are dropped.
* `Decimal.value` — the number that the digits of a field make up, whatever else is in it.
* `Decimal.parse?` — reads a field that must hold leading blanks and digits and nothing else.
-/

namespace PagedIndex

namespace Decimal

def isDigit (b : UInt8) : Bool := 0x30 ≤ b && b ≤ 0x39

def digitValue (b : UInt8) : Nat := b.toNat - 0x30

def digit (n : Nat) : UInt8 := UInt8.ofNat (0x30 + n)

/-- The digits in front of the last one, blanks in place of leading zeros. -/
def leading : Nat → Nat → Bytes
  | 0, _ => []
  | width + 1, n =>
    if n = 0 then List.replicate (width + 1) blank
    else leading width (n / 10) ++ [digit (n % 10)]

/-- Writes `n` right aligned into `width` bytes. -/
def field : Nat → Nat → Bytes
  | 0, _ => []
  | width + 1, n => leading width (n / 10) ++ [digit (n % 10)]

def value (b : Bytes) : Nat :=
  (b.filter isDigit).foldl (fun n d => n * 10 + digitValue d) 0

/-- Bound of the numbers that are read: they are words of 64 bits. -/
def bound : Nat := 0x10000000000000000

/-- Reads blanks and then digits, at least one; `none` also for a number of 64 bits or more. -/
def parse? (b : Bytes) : Option Nat :=
  let digits := b.dropWhile (· == blank)
  if digits.isEmpty || !digits.all isDigit then none
  else if value digits < bound then some (value digits) else none

end Decimal

end PagedIndex
