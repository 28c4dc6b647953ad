import PagedIndex.Basic
import Std.Data.TreeMap

/-!
# Contents of volumes

The bytes of a volume are kept in pages. A page that was never written holds zeros and takes no
room, so a volume may be written far behind its end.

## Main definitions

* `Contents.read` — a part of the contents.
* `Contents.write`, `Contents.cut` — change the contents.
-/

namespace PagedIndex

def pageSize : Nat := 512

structure Page where
  bytes : Bytes
  length_bytes : bytes.length = pageSize

namespace Page

/-- The page that begins with the bytes of `b`, as far as there is room, and holds zeros behind
them. -/
def ofBytes (b : Bytes) : Page :=
  if h : b.length = pageSize then ⟨b, h⟩
  else ⟨Bytes.resize b pageSize 0, Bytes.length_resize b pageSize 0⟩

def blank : Page := ofBytes []

end Page

/-- A string of bytes with a length of its own, in pages. -/
structure Contents where
  size : Nat := 0
  /-- The pages written so far, by number. -/
  pages : Std.TreeMap Nat Page := {}
  deriving Inhabited

namespace Contents

def page (c : Contents) (k : Nat) : Page := c.pages.getD k .blank

/-- The bytes of `count` pages from page `first` on; a single page is not copied. -/
def span (c : Contents) (first count : Nat) : Bytes :=
  if count = 1 then (c.page first).bytes
  else (List.range' first count).foldr (fun k rest => (c.page k).bytes ++ rest) []

theorem span_eq_flatMap (c : Contents) (first count : Nat) :
    c.span first count = (List.range' first count).flatMap fun k => (c.page k).bytes := by
  unfold span
  split
  · next h => simp [h]
  · induction List.range' first count with
    | nil => rfl
    | cons k ks ih => simp [ih]

def pageCount (offset length : Nat) : Nat :=
  (offset % pageSize + length + (pageSize - 1)) / pageSize

/-- Up to `length` bytes from `offset` on. -/
def read (c : Contents) (offset length : Nat) : Bytes :=
  let present := min length (c.size - offset)
  let around := c.span (offset / pageSize) (pageCount offset present)
  Bytes.front (around.drop (offset % pageSize)) present

/-- Makes `count` pages from page `first` on hold the bytes of `image`. -/
def putPages : Nat → Nat → Bytes → Std.TreeMap Nat Page → Std.TreeMap Nat Page
  | 0, _, _, pages => pages
  | count + 1, first, image, pages =>
    let page := Page.ofBytes (Bytes.front image pageSize)
    putPages count (first + 1) (image.drop pageSize) (pages.insert first page)

/-- Puts `data` at `offset`; a gap in front of it is filled with zeros. -/
def write (c : Contents) (offset : Nat) (data : Bytes) : Contents :=
  let first := offset / pageSize
  let count := pageCount offset data.length
  let image := Bytes.patch (c.span first count) (offset % pageSize) data
  { size := max c.size (offset + data.length), pages := putPages count first image c.pages }

/-- Drops all bytes from `size` on. -/
def cut (c : Contents) (size : Nat) : Contents :=
  if c.size ≤ size then c
  else
    let last := size / pageSize
    let rest := Page.ofBytes ((c.page last).bytes.take (size % pageSize))
    { size := size, pages := (c.pages.filter fun k _ => k < last).insert last rest }

/-- The contents made up by some bytes. -/
def ofBytes (b : Bytes) : Contents := ({} : Contents).write 0 b

def toBytes (c : Contents) : Bytes := c.read 0 c.size

end Contents

end PagedIndex
