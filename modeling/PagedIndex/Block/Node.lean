import PagedIndex.Block.Branch
import PagedIndex.Block.Leaf

/-!
# Tree blocks

A block of the tree is a leaf or a branch, told by its tag.
-/

namespace PagedIndex

/-- What a block of the tree holds. -/
inductive Node where
  | leaf (entries : List Entry)
  | branch (contents : Branch)
  deriving DecidableEq

namespace Node

def entries : Node → List Entry
  | leaf es => es
  | branch b => b.entries

def isEmpty (n : Node) : Bool := n.entries.isEmpty

variable (l : Layout)

def fits : Node → Bool
  | leaf es => Leaf.fits l es
  | branch b => b.fits l

def encode (size : Nat) : Node → Except Error Bytes
  | leaf es => Leaf.encode l size es
  | branch b => Branch.encode l size b

def decode (pos : BlockPos) (image : Bytes) : Except Error Node :=
  match image.head?.bind BlockKind.ofTag? with
  | some .leaf => (Leaf.decode l image).map leaf
  | some .branch => (Branch.decode l image).map branch
  | _ => .error (.corrupt (.notTreeBlock pos (image.headD 0)))

end Node

end PagedIndex
