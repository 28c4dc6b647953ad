import PagedIndex.Basic

/-!
# Text from bytes

Bytes are read as UTF-8. Every longest piece that begins a character and cannot be completed, and
every byte that begins none, becomes one replacement character.

## Main definitions

* `Lossy.decode` — the characters of a byte string.
* `Space.trimEnd` — text without the white space at its end.
-/

namespace PagedIndex

namespace Lossy

/-- Stands for bytes that are no text. -/
def replacement : Char := Char.ofNat 0xFFFD

/-- A character that has begun: how many bytes are to come, the bits so far, and the range that the
next byte has to lie in. -/
structure Begun where
  missing : Nat
  bits : Nat
  low : Nat
  high : Nat

/-- What a byte begins: a whole character, a longer one, or none. -/
def begin (b : UInt8) : List Char × Option Begun :=
  let n := b.toNat
  if n < 0x80 then ([Char.ofNat n], none)
  else if 0xC2 ≤ n ∧ n ≤ 0xDF then ([], some ⟨1, n - 0xC0, 0x80, 0xBF⟩)
  else if n = 0xE0 then ([], some ⟨2, 0, 0xA0, 0xBF⟩)
  else if n = 0xED then ([], some ⟨2, 0xD, 0x80, 0x9F⟩)
  else if 0xE1 ≤ n ∧ n ≤ 0xEF then ([], some ⟨2, n - 0xE0, 0x80, 0xBF⟩)
  else if n = 0xF0 then ([], some ⟨3, 0, 0x90, 0xBF⟩)
  else if n = 0xF4 then ([], some ⟨3, 4, 0x80, 0x8F⟩)
  else if 0xF1 ≤ n ∧ n ≤ 0xF3 then ([], some ⟨3, n - 0xF0, 0x80, 0xBF⟩)
  else ([replacement], none)

/-- Takes one byte: the characters it completes, and what has begun behind it. -/
def step (begun : Option Begun) (b : UInt8) : List Char × Option Begun :=
  match begun with
  | none => begin b
  | some s =>
    if s.low ≤ b.toNat ∧ b.toNat ≤ s.high then
      let bits := s.bits * 64 + b.toNat % 64
      if s.missing = 1 then ([Char.ofNat bits], none)
      else ([], some ⟨s.missing - 1, bits, 0x80, 0xBF⟩)
    else
      let (cs, next) := begin b
      (replacement :: cs, next)

def decodeFrom : Option Begun → Bytes → List Char
  | none, [] => []
  | some _, [] => [replacement]
  | begun, b :: rest =>
    let (cs, next) := step begun b
    cs ++ decodeFrom next rest

def decode (b : Bytes) : String := String.ofList (decodeFrom none b)

end Lossy

namespace Space

/-- The ranges of code points with the property White_Space. -/
def ranges : List (Nat × Nat) :=
  [(0x09, 0x0D), (0x20, 0x20), (0x85, 0x85), (0xA0, 0xA0), (0x1680, 0x1680), (0x2000, 0x200A),
    (0x2028, 0x2029), (0x202F, 0x202F), (0x205F, 0x205F), (0x3000, 0x3000)]

def isSpace (c : Char) : Bool := ranges.any fun (low, high) => low ≤ c.toNat && c.toNat ≤ high

def trimEnd (s : String) : String :=
  String.ofList (s.toList.reverse.dropWhile isSpace).reverse

end Space

end PagedIndex
