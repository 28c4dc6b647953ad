import PagedIndex.Text.Basic
import PagedIndex.Text.Document
import PagedIndex.Tree.Basic

/-!
# Surveys

Walks over a whole file that change nothing: they count blocks and entries, check the structure,
and draw the tree.

## Main definitions

* `Tree.survey` — counts, and checks on the way if asked.
* `Tree.outline` — the shape of the tree.
* `Outline.toDocument` — the shape as a document.
-/

namespace PagedIndex

/-- Shape and occupancy of an index file. -/
structure IndexStats where
  /-- Levels of the tree, 0 if it is empty. -/
  height : Nat := 0
  entries : Nat := 0
  leafBlocks : Nat := 0
  branchBlocks : Nat := 0
  freeBlocks : Nat := 0
  slotBlocks : Nat := 0
  /-- Record positions for reuse. -/
  freeSlots : Nat := 0
  /-- Blocks of the file, the header among them. -/
  totalBlocks : Nat := 0
  blockSize : Nat := 0
  keyLength : Nat := 0
  deriving DecidableEq, Inhabited

/-- What a walk over the tree has found. -/
structure Survey where
  /-- The depth of the leaves, from the first leaf. -/
  leafDepth : Option Nat := none
  entries : Nat := 0
  leaves : Nat := 0
  branches : Nat := 0
  deriving DecidableEq, Inhabited

/-- The shape of a tree. -/
inductive Outline where
  | leaf (pos : BlockPos) (entries : List Entry)
  | branch (pos : BlockPos) (entries : List Entry) (children : List Outline)

/-- A key as text, without white space at its end. -/
def Key.text (key : Bytes) : String := Space.trimEnd (Lossy.decode key)

namespace Tree

variable (t : Tree)

/-- Whether two entries may follow each other. -/
def precedes (a b : Entry) : Bool :=
  Entry.compare t.collation true a b == .lt &&
    (t.duplicates || t.collation.compare a.key b.key != .eq)

def ordered : List Entry → Bool
  | a :: b :: rest => t.precedes a b && ordered (b :: rest)
  | _ => true

def checkOrder (pos : BlockPos) (lower : Option Entry) (entries : List Entry)
    (upper : Option Entry) : Program Unit := do
  if !t.ordered (lower.toList ++ entries ++ upper.toList) then
    .fail (.corrupt (.outOfOrder pos))

/-- Takes note of a leaf at a depth; all leaves have to be equally deep for a check. -/
def surveyLeaf (check : Bool) (pos : BlockPos) (depth : Nat) (s : Survey) : Program Survey := do
  let others := s.leafDepth.getD depth
  if check && others != depth then .fail (.corrupt (.unevenLeaf pos depth others))
  return { s with leafDepth := some others, leaves := s.leaves + 1 }

/-- Visits the children of the branch at `pos` from number `i` on, each with the entries around
it. -/
def surveyChildren
    (visit : BlockPos → Option Entry → Option Entry → Survey → Program Survey) (pos : BlockPos) :
    Nat → Option Entry → BlockPos → List (Entry × BlockPos) → Option Entry → Survey →
      Program Survey
  | i, lower, child, [], upper, s => do
    if child.isNull then .fail (.corrupt (.nullChild pos i))
    visit child lower upper s
  | i, lower, child, (separator, next) :: rest, upper, s => do
    if child.isNull then .fail (.corrupt (.nullChild pos i))
    let s ← visit child lower (some separator) s
    surveyChildren visit pos (i + 1) (some separator) next rest upper s

/-- Walks over the tree at `pos`, of at most `levels` levels, whose entries lie between two
others. -/
def surveyNode (check : Bool) :
    Nat → Nat → BlockPos → Option Entry → Option Entry → Survey → Program Survey
  | 0, _, _, _, _, _ => .fail (.corrupt .tooDeep)
  | levels + 1, depth, pos, lower, upper, s => do
    let n ← t.node .current pos
    let s := { s with entries := s.entries + n.entries.length }
    if check && n.isEmpty then .fail (.corrupt (.emptyTreeBlock pos))
    match n with
    | .leaf entries =>
      let s ← surveyLeaf check pos depth s
      if check then t.checkOrder pos lower entries upper
      return s
    | .branch b =>
      let s := { s with branches := s.branches + 1 }
      if check then t.checkOrder pos lower b.entries upper
      surveyChildren (surveyNode check levels (depth + 1)) pos 0 lower b.first b.separators upper s

def surveyTree (check : Bool) (root : BlockPos) : Program Survey :=
  if root.isNull then return {}
  else t.surveyNode check (maxLevels + 1) 1 root none none {}

/-- Counts the blocks of a chain of deleted blocks that has at most `bound` blocks, from `blocks`
on. -/
def freeChainLength (blocks : Nat) : Nat → BlockPos → Program Nat
  | bound, pos => do
    if pos.isNull then return blocks
    else
      match bound with
      | 0 => .fail (.corrupt .freeChainLoops)
      | bound + 1 =>
        Program.loadBlock .sibling pos
        let next ← Deleted.decode t.layout pos (← Program.image .sibling)
        freeChainLength (blocks + 1) bound next

/-- Counts the blocks of a chain of slot blocks that has at most `bound` blocks, and the record
positions in it, from `blocks` and `records` on. -/
def slotChainSize (check : Bool) (blocks records : Nat) : Nat → BlockPos → Program (Nat × Nat)
  | bound, pos => do
    if pos.isNull then return (blocks, records)
    else
      match bound with
      | 0 => .fail (.corrupt .slotChainLoops)
      | bound + 1 =>
        let slots ← Program.loadSlots t.layout pos
        if check && slots.records.isEmpty then .fail (.corrupt (.emptySlotBlock pos))
        slotChainSize check (blocks + 1) (records + slots.records.length) bound slots.next

/-- Counts blocks and entries. With `check` the structure is checked too: order, depth of the
leaves, and that every block of the file is reached. -/
def survey (check : Bool) : Program IndexStats := do
  let p ← Program.getPointers
  let total := p.highWater.offset / t.layout.blockSize + 1
  let s ← t.surveyTree check p.root
  let free ← t.freeChainLength 0 total p.freeHead
  let (slotBlocks, freeSlots) ← t.slotChainSize check 0 0 total p.slotHead
  let reachable := 1 + s.leaves + s.branches + free + slotBlocks
  if check && reachable != total then
    .fail (.corrupt (.unaccountedBlocks total reachable))
  return {
    height := s.leafDepth.getD 0
    entries := s.entries
    leafBlocks := s.leaves
    branchBlocks := s.branches
    freeBlocks := free
    slotBlocks := slotBlocks
    freeSlots := freeSlots
    totalBlocks := total
    blockSize := t.layout.blockSize
    keyLength := t.layout.keyLength }

def outlineAll (visit : BlockPos → Program Outline) : List BlockPos → Program (List Outline)
  | [] => return []
  | pos :: rest => do
    let first ← visit pos
    let others ← outlineAll visit rest
    return first :: others

def outlineNode : Nat → BlockPos → Program Outline
  | 0, _ => .fail (.corrupt .tooDeep)
  | levels + 1, pos => do
    match ← t.node .current pos with
    | .leaf entries => return .leaf pos entries
    | .branch b => return .branch pos b.entries (← outlineAll (outlineNode levels) b.children)

/-- The shape of the tree, or nothing if it is empty. -/
def outline : Program (Option Outline) := do
  let root ← root
  if root.isNull then return none
  else return some (← t.outlineNode (maxLevels + 1) root)

end Tree

namespace Outline

def blockDocument (pos : BlockPos) (isLeaf : Bool) (entries : List Entry)
    (children : List Document) : Document :=
  .record [
    ("block", .number pos.offset),
    ("isLeaf", .truth isLeaf),
    ("keys", .list (entries.map fun e => .text (Key.text e.key))),
    ("records", .list (entries.map fun e => .number e.record)),
    ("children", .list children)]

mutual

def toDocument : Outline → Document
  | leaf pos entries => blockDocument pos true entries []
  | branch pos entries children => blockDocument pos false entries (allDocuments children)

def allDocuments : List Outline → List Document
  | [] => []
  | o :: rest => o.toDocument :: allDocuments rest

end

end Outline

end PagedIndex
