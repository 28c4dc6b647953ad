import PagedIndex.Error
import PagedIndex.Layout

/-!
# Block images

What all blocks have in common: the tag in front, the end mark behind the contents, the filler
after it. A modern block may be full to the last byte, and then there is no end mark.

## Main definitions

* `BlockImage.close` — completes the contents of a block to its image.
* `Edit` — a change of a block in place.
-/

namespace PagedIndex

namespace BlockImage

variable (l : Layout)

/-- The end mark and the filler behind it, `room` bytes in all. -/
def ending : Nat → Bytes
  | 0 => []
  | room + 1 => l.endMark :: List.replicate room filler

/-- The image of `size` bytes for the contents `body`, the tag among them. -/
def close (size : Nat) (body : Bytes) : Except Error Bytes :=
  if !l.fits body.length || size < body.length then
    .error (.internal (.blockTooLong body.length l.blockSize))
  else .ok (body ++ ending l (size - body.length))

/-- The part of an image that contents may lie in. -/
def used (image : Bytes) : Bytes := Bytes.front image l.blockSize

/-- Accepts an image of the given kind only. -/
def expect (kind : BlockKind) (image : Bytes) : Except Error Unit :=
  match image with
  | [] => .error (.corrupt .emptyImage)
  | tag :: _ => if tag = kind.tag then .ok () else .error (.corrupt (.wrongTag kind tag))

end BlockImage

/-- A change of a block in place: the image it leaves behind, and whether it went through. -/
abbrev Edit := Bytes → Bytes × Except Error Unit

namespace Edit

/-- Puts a new image, of the size of the old one, in place of it. -/
def replace (image : Nat → Except Error Bytes) : Edit := fun old =>
  match image old.length with
  | .ok new => (new, .ok ())
  | .error e => (old, .error e)

def clear : Edit := fun old => (List.replicate old.length filler, .ok ())

end Edit

end PagedIndex
