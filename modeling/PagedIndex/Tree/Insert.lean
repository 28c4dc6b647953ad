import PagedIndex.Tree.Search

/-!
# Insertion

An entry goes into the leaf where the search for it ends. If the leaf overflows, what does not fit
is offered to the brother on the right, through the separator between them. Only if the brother has
no room for it the leaf is split, and a separator goes up.

## Main definitions

* `Tree.insert` — adds an entry.
* `Tree.splitLeaf`, `Tree.promote` — make room on the way up.
-/

namespace PagedIndex

namespace Tree

variable (t : Tree)

/-- The new root over two trees of equal depth. -/
def growRoot (left : BlockPos) (separator : Entry) (right : BlockPos) : Program Unit := do
  let root ← Program.allocate t.layout .parent
  t.putBranch .parent root ⟨left, [(separator, right)]⟩
  setRoot root

/-- Puts a separator with the child on its right into the branches on a way up. A branch that
overflows keeps all but its last two separators: the one goes up, the other goes into a new branch.
`left` is the block in front of the separator. -/
def promote : List Step → BlockPos → Entry → BlockPos → Program Unit
  | [], left, separator, child => t.growRoot left separator child
  | step :: outer, _, separator, child => do
    let b ← t.branch .parent step.block
    let all := b.separators.take step.index ++ (separator, child) :: b.separators.drop step.index
    if Branch.fits t.layout ⟨b.first, all⟩ then t.putBranch .parent step.block ⟨b.first, all⟩
    else
      match all.reverse with
      | last :: (middle, middleChild) :: front =>
        t.putBranch .parent step.block ⟨b.first, front.reverse⟩
        let right ← Program.allocate t.layout .sibling
        t.putBranch .sibling right ⟨middleChild, [last]⟩
        promote outer step.block middle right
      | _ => .fail (.internal .unsplittableBranch)

/-- Moves what overflows into the brother on the right, if it has room. -/
def offload (path : List Step) (pos : BlockPos) (kept : List Entry) (separator : Entry)
    (moved : List Entry) : Program Bool := do
  match path with
  | [] => return false
  | step :: _ =>
    let b ← t.branch .parent step.block
    match b.separators[step.index]? with
    | none => return false
    | some (old, right) =>
      let entries := moved ++ old :: (← t.leaf .sibling right)
      if Leaf.fits t.layout entries then
        t.putLeaf .current pos kept
        t.putLeaf .sibling right entries
        t.putBranch .parent step.block
          { b with separators := b.separators.set step.index (separator, right) }
        return true
      else return false

/-- Makes two blocks of a leaf that overflows, or moves entries to its brother. -/
def splitLeaf (path : List Step) (pos : BlockPos) (entries : List Entry) : Program Unit := do
  let fitting := Leaf.fittingPrefix t.layout entries
  match (entries.take fitting).reverse, entries.drop fitting with
  | promoted :: front@(_ :: _), overflow@(separator :: moved) =>
    if ← t.offload path pos (promoted :: front).reverse separator moved then return ()
    else
      let right ← Program.allocate t.layout .sibling
      t.putLeaf .sibling right overflow
      t.putLeaf .current pos front.reverse
      t.promote path pos promoted right
  | _, _ => .fail (.internal (.unsplittableLeaf entries.length fitting))

def insertInLeaf (path : List Step) (pos : BlockPos) (entries : List Entry) (index : Nat)
    (e : Entry) : Program Unit := do
  let entries := entries.take index ++ e :: entries.drop index
  if Leaf.fits t.layout entries then t.putLeaf .current pos entries
  else t.splitLeaf path pos entries

/-- Adds an entry, unless it is there, or its key is and keys may not repeat. -/
def insert (e : Entry) : Program InsertOutcome := do
  let d ← t.locate e true
  if d.state = .onKey then return .duplicateExact
  else if d.sameKey && !t.duplicates then return .duplicateKey
  else if d.block.isNull then
    let pos ← Program.allocate t.layout .current
    t.putLeaf .current pos [e]
    setRoot pos
    return .inserted
  else
    match d.leafEnd with
    | some pos =>
      let entries ← t.leaf .current pos
      t.insertInLeaf d.path pos entries entries.length e
      return .inserted
    | none =>
      if d.onBranch then .fail (.internal .insertAtSeparator)
      else
        let entries ← t.leaf .current d.block
        t.insertInLeaf d.path d.block entries d.index e
        return .inserted

end Tree

end PagedIndex
