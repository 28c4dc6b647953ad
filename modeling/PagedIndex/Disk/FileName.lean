/-!
# File names

A file name is a way through folders: parts between slashes, of which empty ones and single dots
lead nowhere. A name may start at the root or with a dot that stays part of it.

## Main definitions

* `FileName.extension?`, `FileName.withExtension` — the part behind the last dot.
* `FileName.parent?`, `FileName.join` — going up and down.
-/

namespace PagedIndex

namespace FileName

/-- The texts between the slashes. -/
def segments : List Char → List (List Char)
  | [] => [[]]
  | c :: cs =>
    match segments cs with
    | [] => [[c]]
    | s :: rest => if c = '/' then [] :: s :: rest else (c :: s) :: rest

structure Pieces where
  /-- The root, or a dot in front. -/
  front : List Char
  /-- What follows, between slashes. -/
  parts : List (List Char)

namespace Pieces

def ofName (name : String) : Pieces :=
  match name.toList with
  | '/' :: body => ⟨['/'], segments body⟩
  | ['.'] => ⟨['.'], segments []⟩
  | '.' :: '/' :: body => ⟨['.'], segments ('/' :: body)⟩
  | body => ⟨[], segments body⟩

def toName (p : Pieces) : String := String.ofList (p.front ++ ['/'].intercalate p.parts)

/-- Whether a part leads nowhere. -/
def idle (part : List Char) : Bool := part == [] || part == ['.']

/-- Without the parts at the end that lead nowhere. -/
def trim (p : Pieces) : Pieces := { p with parts := (p.parts.reverse.dropWhile idle).reverse }

/-- The last part, unless it goes up. -/
def last? (p : Pieces) : Option (List Char) :=
  p.trim.parts.getLast?.filter (· != ['.', '.'])

def withLast (p : Pieces) (part : List Char) : Pieces :=
  { p with parts := p.trim.parts.dropLast ++ [part] }

end Pieces

/-- The texts in front of the last dot and behind it; a dot in front of all else is no such dot. -/
def splitExtension (part : List Char) : List Char × Option (List Char) :=
  let behind := part.reverse.takeWhile (· != '.')
  let stem := part.take (part.length - behind.length - 1)
  if stem == [] then (part, none) else (stem, some behind.reverse)

/-- The text behind the last dot of a name. -/
def extension? (name : String) : Option (List Char) :=
  (Pieces.ofName name).last?.bind fun part => (splitExtension part).2

/-- Puts `extension` in place of the text behind the last dot. A name without a last part stays as
it is. A last part like `..x`, a dot in front of the last dot, loses the old extension and then
goes up, so that it gets no new one. -/
def withExtension (name extension : String) : String :=
  let pieces := Pieces.ofName name
  match pieces.last? with
  | none => name
  | some part =>
    let (stem, old) := splitExtension part
    if stem == ['.'] && old.isSome && pieces.parts.length == pieces.trim.parts.length then
      (pieces.withLast ['.', '.']).toName
    else (pieces.withLast (stem ++ '.' :: extension.toList)).toName

/-- The folder a name lies in; none for the root and the empty name. -/
def parent? (name : String) : Option String :=
  let trimmed := (Pieces.ofName name).trim
  if trimmed.parts.isEmpty then
    if trimmed.front == ['.'] then some "" else none
  else some { trimmed with parts := trimmed.parts.dropLast : Pieces }.trim.toName

def join (folder name : String) : String :=
  if folder == "" || folder.toList.getLast? == some '/' then folder ++ name
  else folder ++ "/" ++ name

end FileName

end PagedIndex
