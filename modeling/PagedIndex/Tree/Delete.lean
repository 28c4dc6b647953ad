import PagedIndex.Tree.Search

/-!
# Deletion

A deleted separator is replaced by the entry behind it, so that an entry always leaves a leaf. On
the way up a block is then merged with its brother and the separator between them wherever the
result fits. Where it does not fit the two stay, but an empty one gets an entry from the other.

## Main definitions

* `Tree.delete` — removes an entry.
* `Tree.collapse` — merges blocks on the way up.
-/

namespace PagedIndex

namespace Node

/-- Two brothers and the separator between them as one node. -/
def merge (left : Node) (separator : Entry) (right : Node) : Except Error Node :=
  match left, right with
  | .leaf l, .leaf r => .ok (.leaf (l ++ separator :: r))
  | .branch l, .branch r =>
    .ok (.branch ⟨l.first, l.separators ++ (separator, r.first) :: r.separators⟩)
  | _, _ => .error (.corrupt .levelsDiffer)

/-- Moves one entry into whichever of two brothers is empty, through the separator between them.
Nothing is moved unless exactly one of them is empty. -/
def rotate (left : Node) (separator : Entry) (right : Node) : Option (Node × Entry × Node) :=
  match left, right with
  | .leaf [], .leaf (e :: r) => some (.leaf [separator], e, .leaf r)
  | .leaf l@(_ :: _), .leaf [] =>
    l.getLast?.map fun e => (.leaf l.dropLast, e, .leaf [separator])
  | .branch ⟨first, []⟩, .branch ⟨middle, (e, child) :: r⟩ =>
    some (.branch ⟨first, [(separator, middle)]⟩, e, .branch ⟨child, r⟩)
  | .branch ⟨first, l@(_ :: _)⟩, .branch ⟨middle, []⟩ =>
    l.getLast?.map fun (e, child) =>
      (.branch ⟨first, l.dropLast⟩, e, .branch ⟨child, [(separator, middle)]⟩)
  | _, _ => none

end Node

/-- Two brothers and the index of the separator between them. -/
structure Brothers where
  index : Nat
  leftPos : BlockPos
  left : Node
  rightPos : BlockPos
  right : Node

namespace Tree

variable (t : Tree)

/-- A node and its brother, on the right if there is one and else on the left. -/
def brothers (step : Step) (b : Branch) (pos : BlockPos) (n : Node) : Program Brothers := do
  match b.separators[step.index]? with
  | some (_, right) => return ⟨step.index, pos, n, right, ← t.node .sibling right⟩
  | none =>
    if step.index = 0 then .fail (.corrupt (.noSeparators step.block))
    else
      match b.child? (step.index - 1) with
      | none => .fail (.corrupt (.missingChild step.block (step.index - 1)))
      | some left => return ⟨step.index - 1, left, ← t.node .sibling left, pos, n⟩

/-- Takes away a root without separators: its only child becomes the root. -/
def shrinkRoot (pos : BlockPos) (n : Node) : Program Unit := do
  match n with
  | .branch ⟨first, []⟩ =>
    Program.free t.layout .parent pos
    setRoot first
  | _ => return ()

/-- Merges the node `n` at `pos` with a brother, and so on up the way as long as it fits. -/
def collapse : List Step → BlockPos → Node → Program Unit
  | [], pos, n => t.shrinkRoot pos n
  | step :: outer, pos, n => do
    let b ← t.branch .parent step.block
    let pair ← t.brothers step b pos n
    match b.separators[pair.index]? with
    | none => .fail .outOfRange
    | some (separator, child) =>
      let merged ← Node.merge pair.left separator pair.right
      if merged.fits t.layout then
        let b := { b with separators := b.separators.eraseIdx pair.index }
        Program.storeNode t.layout .current pair.leftPos merged
        Program.free t.layout .sibling pair.rightPos
        t.putBranch .parent step.block b
        collapse outer step.block (.branch b)
      else
        match Node.rotate pair.left separator pair.right with
        | none => return ()
        | some (left, separator, right) =>
          Program.storeNode t.layout .current pair.leftPos left
          Program.storeNode t.layout .sibling pair.rightPos right
          t.putBranch .parent step.block
            { b with separators := b.separators.set pair.index (separator, child) }

/-- The way down to the first leaf under `pos`, through at most `levels` branches. -/
def firstLeaf : Nat → List Step → BlockPos → Program (List Step × BlockPos × List Entry)
  | levels, path, pos => do
    match ← t.node .current pos with
    | .leaf entries => return (path, pos, entries)
    | .branch b =>
      match levels with
      | 0 => .fail (.corrupt .tooDeep)
      | levels + 1 => firstLeaf levels (⟨pos, 0⟩ :: path) b.first

/-- Removes a separator: the first entry behind it takes its place. -/
def deleteSeparator (path : List Step) (pos : BlockPos) (index : Nat) : Program Entry := do
  match path with
  | [] => .fail (.internal .noPathToSeparator)
  | step :: outer =>
    let b ← t.branch .parent pos
    match b.separators[index]? with
    | none => .fail (.corrupt (.missingChild pos (index + 1)))
    | some (removed, right) =>
      let path := { step with index := step.index + 1 } :: outer
      let (path, leafPos, entries) ← t.firstLeaf (maxLevels - path.length) path right
      match entries with
      | [] => .fail (.corrupt (.emptyLeaf leafPos))
      | e :: rest =>
        t.putBranch .parent pos { b with separators := b.separators.set index (e, right) }
        t.putLeaf .current leafPos rest
        t.collapse path leafPos (.leaf rest)
        return removed

def deleteInLeaf (path : List Step) (pos : BlockPos) (index : Nat) : Program Entry := do
  let entries ← t.leaf .current pos
  match path, entries with
  | [], [e] =>
    setRoot .null
    Program.free t.layout .current pos
    return e
  | _, _ =>
    match entries[index]? with
    | none => .fail .outOfRange
    | some e =>
      let rest := entries.eraseIdx index
      t.putLeaf .current pos rest
      t.collapse path pos (.leaf rest)
      return e

/-- Removes the target, or without `exact` the first entry of its key, and returns it. -/
def delete (target : Entry) (exact : Bool) : Program (Option Entry) := do
  let d ← t.locate target exact
  if d.state ≠ .onKey then return none
  else if d.onBranch then return some (← t.deleteSeparator d.path d.block d.index)
  else return some (← t.deleteInLeaf d.path d.block d.index)

end Tree

end PagedIndex
