import PagedIndex.Session.Space
import PagedIndex.Status

/-!
# Trees

Entries are kept in a tree of blocks. All leaves are equally deep, and the separators of branches
are entries of the index themselves.

## Main definitions

* `Tree` — what is fixed of a tree: block geometry, order, and whether keys may repeat.
* `Scan` — where an entry stands among the entries of one block.
-/

namespace PagedIndex

/-- What is fixed of a tree. -/
structure Tree where
  layout : Layout
  collation : Collation
  /-- Whether one key may stand for several record positions. -/
  duplicates : Bool
  deriving Inhabited

/-- Where a target stands among entries. -/
structure Scan where
  /-- The number of entries less than the target. -/
  index : Nat
  /-- Whether the entry there is the target. -/
  found : Bool
  /-- Whether an entry that was compared has the key of the target. -/
  sameKey : Bool
  deriving DecidableEq

namespace Scan

/-- The scan with one more entry in front. -/
def shift (s : Scan) (sameKey : Bool) : Scan :=
  { s with index := s.index + 1, sameKey := s.sameKey || sameKey }

/-- The state of a search that ends here, in a block of `size` entries. -/
def state (s : Scan) (size : Nat) : KeyState :=
  if s.found then .onKey
  else if s.index = size then .afterLast
  else if s.index = 0 then .beforeFirst
  else .between

end Scan

namespace Tree

variable (t : Tree)

/-- Looks for the first entry that is not less than the target. Without `exact` an entry of equal
key is a hit; with it the record position has to be the same too. -/
def scan (target : Entry) (exact : Bool) : List Entry → Scan
  | [] => ⟨0, false, false⟩
  | e :: rest =>
    match t.collation.compare target.key e.key with
    | .gt => (scan target exact rest).shift false
    | .lt => ⟨0, false, false⟩
    | .eq =>
      if !exact then ⟨0, true, true⟩
      else
        match Ord.compare target.record e.record with
        | .gt => (scan target exact rest).shift true
        | .eq => ⟨0, true, true⟩
        | .lt => ⟨0, false, true⟩

def node (role : Role) (pos : BlockPos) : Program Node := Program.loadNode t.layout role pos

def leaf (role : Role) (pos : BlockPos) : Program (List Entry) :=
  Program.loadLeaf t.layout role pos

def branch (role : Role) (pos : BlockPos) : Program Branch :=
  Program.loadBranch t.layout role pos

def putLeaf (role : Role) (pos : BlockPos) (entries : List Entry) : Program Unit :=
  Program.storeNode t.layout role pos (.leaf entries)

def putBranch (role : Role) (pos : BlockPos) (b : Branch) : Program Unit :=
  Program.storeNode t.layout role pos (.branch b)

/-- The root of the tree, null if the tree is empty. -/
def root : Program BlockPos := do return (← Program.getPointers).root

def setRoot (pos : BlockPos) : Program Unit := Program.modifyPointers fun p => { p with root := pos }

end Tree

end PagedIndex
