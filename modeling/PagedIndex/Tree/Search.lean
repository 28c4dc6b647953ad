import PagedIndex.Tree.Basic

/-!
# Search

A search goes down from the root and ends at a place in the tree: at an entry of a leaf or at a
separator.

## Main definitions

* `Tree.locate` — searches for an entry.
* `Tree.successor`, `Tree.predecessor` — the places next to a place.
* `Tree.entryAt` — the entry at a place.
-/

namespace PagedIndex

/-- A branch on the way of a search: the way goes on in child `index`. -/
structure Step where
  block : BlockPos
  index : Nat
  deriving DecidableEq, Inhabited

/-- Where a search ended. -/
structure Descent where
  state : KeyState := .beforeFirst
  /-- The branches on the way, the deepest in front. -/
  path : List Step := []
  /-- The block of the place: a leaf, or the branch if `onBranch` is set. -/
  block : BlockPos := .null
  index : Nat := 0
  onBranch : Bool := false
  /-- The leaf that the search left behind its last entry for the separator that follows. -/
  leafEnd : Option BlockPos := none
  /-- Whether an entry of equal key was met on the way. -/
  sameKey : Bool := false
  deriving DecidableEq, Inhabited

/-- What a search knows on its way down. -/
structure Trail where
  path : List Step := []
  sameKey : Bool := false
  /-- Whether the way went along the left edge of the tree so far. -/
  leftmost : Bool := true
  /-- Whether the way went along the right edge of the tree so far. -/
  rightmost : Bool := true
  /-- The way to the deepest separator that is a hit. -/
  fallback : List Step := []

namespace Tree

variable (t : Tree)

/-- The first leaf under `pos`, which has to hold entries. -/
def leftmostLeaf : Nat → BlockPos → Program BlockPos
  | 0, _ => .fail (.corrupt .tooDeep)
  | levels + 1, pos => do
    match ← t.node .current pos with
    | .branch b => leftmostLeaf levels b.first
    | .leaf [] => .fail (.corrupt (.emptyLeaf pos))
    | .leaf (_ :: _) => return pos

/-- The last leaf under `pos`, which has to hold entries, and their number. -/
def rightmostLeaf : Nat → BlockPos → Program (BlockPos × Nat)
  | 0, _ => .fail (.corrupt .tooDeep)
  | levels + 1, pos => do
    match ← t.node .current pos with
    | .branch b => rightmostLeaf levels b.lastChild
    | .leaf [] => .fail (.corrupt (.emptyLeaf pos))
    | .leaf entries => return (pos, entries.length)

/-- The deepest separator that is not left behind by a way. -/
def nextSeparator (d : Descent) : List Step → Program Descent
  | [] => return { d with state := .afterLast }
  | step :: outer => do
    let b ← t.branch .parent step.block
    if step.index < b.separators.length then
      return { d with state := .onKey, block := step.block, index := step.index, onBranch := true }
    else nextSeparator d outer

def successor (d : Descent) : Program Descent := do
  if d.onBranch then
    let b ← t.branch .current d.block
    match b.child? (d.index + 1) with
    | none => .fail (.corrupt (.missingChild d.block (d.index + 1)))
    | some right =>
      let leaf ← t.leftmostLeaf (maxLevels + 1) right
      return { d with state := .onKey, block := leaf, index := 0, onBranch := false }
  else
    let entries ← t.leaf .current d.block
    if d.index + 1 < entries.length then
      return { d with state := .onKey, index := d.index + 1 }
    else t.nextSeparator { d with index := entries.length } d.path

def predecessor (d : Descent) : Program Descent := do
  if d.onBranch then
    let b ← t.branch .current d.block
    match b.child? d.index with
    | none => .fail (.corrupt (.missingChild d.block d.index))
    | some left =>
      let (leaf, size) ← t.rightmostLeaf (maxLevels + 1) left
      return { d with state := .onKey, block := leaf, index := size - 1, onBranch := false }
  else if d.index > 0 then
    return { d with state := .onKey, index := d.index - 1 }
  else
    match d.path.find? (·.index > 0) with
    | some step =>
      return { d with
        state := .onKey, block := step.block, index := step.index - 1, onBranch := true }
    | none => return { d with state := .beforeFirst }

def entryAt (d : Descent) : Program Entry := do
  let n ← t.node .current d.block
  let entries :=
    match n with
    | .branch b => if d.onBranch then b.entries else []
    | .leaf es => if d.onBranch then [] else es
  match entries[d.index]? with
  | some e => return e
  | none => .fail (.internal (.noEntry d.index d.block))

/-- Ends a search in a leaf. Behind the last entry of a leaf that is not the last one the place is
the separator that follows. -/
def endInLeaf (trail : Trail) (pos : BlockPos) (s : Scan) (size : Nat) : Program Descent := do
  let d : Descent := {
    state := s.state size
    path := trail.path
    block := pos
    index := s.index
    sameKey := trail.sameKey || s.sameKey }
  match s.found, trail.fallback with
  | false, step :: outer =>
    return { d with
      state := .onKey
      path := step :: outer
      block := step.block
      index := step.index
      onBranch := true }
  | _, _ =>
    match d.state with
    | .onKey | .between => return d
    | .beforeFirst => return if trail.leftmost then d else { d with state := .between }
    | .afterLast =>
      if trail.rightmost then return d
      else return { ← t.successor { d with leafEnd := some pos } with state := .between }

/-- Searches below `pos`, through at most `levels` branches. -/
def descend (target : Entry) (exact : Bool) : Nat → Trail → BlockPos → Program Descent
  | levels, trail, pos => do
    match ← t.node .current pos with
    | .leaf entries => t.endInLeaf trail pos (t.scan target exact entries) entries.length
    | .branch b =>
      match levels with
      | 0 => .fail (.corrupt .tooDeep)
      | levels + 1 =>
        let s := t.scan target exact b.entries
        let path := ⟨pos, s.index⟩ :: trail.path
        let sameKey := trail.sameKey || s.sameKey
        if s.found && (exact || !t.duplicates) then
          return {
            state := .onKey
            path := path
            block := pos
            index := s.index
            onBranch := true
            sameKey := sameKey }
        else
          let state := s.state b.separators.length
          let trail : Trail := {
            path := path
            sameKey := sameKey
            leftmost := trail.leftmost && state == .beforeFirst
            rightmost := trail.rightmost && state == .afterLast
            fallback := if s.found then path else trail.fallback }
          match b.child? s.index with
          | some child => descend target exact levels trail child
          | none => .fail (.corrupt (.missingChild pos s.index))

/-- Searches for an entry, or without `exact` for the first entry of its key.

A hit on a separator ends the search, unless the search is not exact and keys may repeat. Then it
goes on to the left for the first entry of equal key and comes back to the separator if the leaves
hold none. -/
def locate (target : Entry) (exact : Bool) : Program Descent := do
  let root ← root
  if root.isNull then return {}
  else t.descend target exact maxLevels {} root

end Tree

end PagedIndex
