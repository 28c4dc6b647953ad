import PagedIndex.Tree.Search

/-!
# Cursors

A cursor stands on an entry or next to a key. Moves go in key order, from where the cursor stands.
They do not change the file.

## Main definitions

* `Tree.find`, `Tree.findLast` — move to a key.
* `Tree.next`, `Tree.previous` — move by one entry.
* `Collation.leastAbove?` — the least key above all keys with a prefix.
-/

namespace PagedIndex

/-- Where a handle stands in key order. -/
structure Cursor where
  state : KeyState := .beforeFirst
  /-- The entry that the cursor is on, or the key next to it. -/
  current : Option Entry := none
  /-- The block that the cursor last landed in. -/
  hint : Option BlockPos := none
  deriving DecidableEq, Inhabited

namespace Cursor

/-- Stands on an entry of a block. -/
def land (e : Entry) (block : BlockPos) : Cursor := ⟨.onKey, some e, some block⟩

/-- Stands off the entries, next to a key. -/
def park (state : KeyState) (e : Entry) : Cursor := ⟨state, some e, none⟩

def record? (c : Cursor) : Option Nat :=
  if c.state = .onKey then c.current.map Entry.record else none

end Cursor

namespace Collation

/-- The least key above all keys whose first `length` bytes collate like those of `padded`: the
last of these bytes that is not highest goes up by one rank, the lowest byte follows. -/
def leastAbove? (c : Collation) (padded : Bytes) (length : Nat) : Option Bytes :=
  let isHighest (b : UInt8) : Bool := c.weight b == c.weight c.highest
  match (padded.take length).reverse.dropWhile isHighest with
  | [] => none
  | b :: front =>
    some (front.reverse ++ c.nextAbove b
      :: List.replicate (padded.length - front.length - 1) c.lowest)

end Collation

namespace Tree

variable (t : Tree)

/-- Moves a cursor to a place. Off the entries it keeps the key it stood next to. -/
def settle (c : Cursor) (d : Descent) : Program Cursor := do
  if d.state = .onKey then return Cursor.land (← t.entryAt d) d.block
  else return { c with state := d.state, hint := none }

def placeInLeaf (block : BlockPos) (index : Nat) : Descent :=
  { state := .onKey, block := block, index := index }

/-- Moves to the first entry of a key, or next to the key. -/
def find (c : Cursor) (key : Bytes) : Program Cursor := do
  let d ← t.locate ⟨key, 0⟩ false
  if d.state = .onKey then t.settle c d
  else return Cursor.park d.state ⟨key, t.layout.maxRecord⟩

/-- Moves to the last entry whose key begins like `padded` does in its first `length` bytes, or next
to `padded`. -/
def findLast (padded : Bytes) (length : Nat) : Program Cursor := do
  let length := min length padded.length
  let above := t.collation.leastAbove? padded length
  let d ← t.locate ⟨above.getD padded, 0⟩ false
  let missed := Cursor.park .between ⟨padded, t.layout.maxRecord⟩
  if d.block.isNull || d.state == .beforeFirst then return missed
  else
    let d ← if d.state != .onKey || above.isSome then t.predecessor d else pure d
    if d.state = .onKey then
      let e ← t.entryAt d
      if t.collation.compare (e.key.take length) (padded.take length) = .eq then
        return Cursor.land e d.block
      else return missed
    else return missed

def first (c : Cursor) : Program Cursor := do
  let root ← root
  if root.isNull then return { c with state := .afterLast, hint := none }
  else
    let leaf ← t.leftmostLeaf (maxLevels + 1) root
    t.settle c (placeInLeaf leaf 0)

def last (c : Cursor) : Program Cursor := do
  let root ← root
  if root.isNull then return { c with state := .beforeFirst, hint := none }
  else
    let (leaf, size) ← t.rightmostLeaf (maxLevels + 1) root
    t.settle c (placeInLeaf leaf (size - 1))

/-- Looks for the entry behind `current` in the block that the cursor landed in. Gives up if the
block is no tree block, does not hold `current` any more, or does not lead to the entry behind. -/
def nextFromHint (hint : BlockPos) (current : Entry) : Program (Option Descent) := do
  let p ← Program.getPointers
  if hint.isNull || p.highWater.offset < hint.offset then return none
  else
    Program.loadBlock .current hint
    let tag := (← Program.image .current).head?
    if tag ≠ some BlockKind.leaf.tag ∧ tag ≠ some BlockKind.branch.tag then return none
    else
      match ← t.node .current hint with
      | .leaf entries =>
        let s := t.scan current true entries
        if s.found && s.index + 1 < entries.length then
          return some (placeInLeaf hint (s.index + 1))
        else return none
      | .branch b =>
        let s := t.scan current true b.entries
        match s.found, b.child? (s.index + 1) with
        | true, some right =>
          return some (placeInLeaf (← t.leftmostLeaf (maxLevels + 1) right) 0)
        | _, _ => return none

/-- Moves from next to or on `current` to the entry behind it, by a search from the root. -/
def nextBySearch (c : Cursor) (current : Entry) : Program Cursor := do
  let d ← t.locate current true
  let d ←
    match d.state with
    | .onKey => t.successor d
    | .between => pure { d with state := .onKey }
    | .beforeFirst =>
      pure { d with state := if d.block.isNull then .afterLast else .onKey }
    | .afterLast => pure d
  t.settle c d

def next (c : Cursor) : Program Cursor := do
  match c.state, c.current with
  | .afterLast, _ => return c
  | .onKey, some current =>
    let near ←
      match c.hint with
      | some hint => t.nextFromHint hint current
      | none => pure none
    match near with
    | some d => t.settle c d
    | none => t.nextBySearch c current
  | .between, some current => t.nextBySearch c current
  | _, _ => t.first c

def previous (c : Cursor) : Program Cursor := do
  match c.state, c.current with
  | .beforeFirst, _ => return c
  | .onKey, some current | .between, some current =>
    let d ← t.locate current true
    let d ← if d.state = .beforeFirst then pure d else t.predecessor d
    t.settle c d
  | _, _ => t.last c

end Tree

end PagedIndex
