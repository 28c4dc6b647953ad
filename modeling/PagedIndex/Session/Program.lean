import PagedIndex.Block.Node
import PagedIndex.Header.Pointers

/-!
# Block programs

What an index call does with blocks, as a tree of instructions: blocks are loaded for roles,
viewed and edited there, and the chain pointers are read and set. A program says nothing of caches
and stores; `Session.perform` carries it out over a cache.

## Main definitions

* `Program` — instruction trees that end with a value or an error.
* `Program.loadNode`, `Program.storeNode` — tree blocks.
-/

namespace PagedIndex

/-- A tree of block instructions that ends with a value or an error. -/
inductive Program (α : Type) : Type where
  /-- Ends with a value. -/
  | done (a : α)
  /-- Ends with an error. -/
  | fail (e : Error)
  /-- Loads the block at `pos` for a role; the block the role had is released. Without `read` the
  block is new and comes filled. -/
  | load (role : Role) (pos : BlockPos) (read : Bool) (next : Program α)
  /-- Looks at the block of a role. -/
  | view (role : Role) (next : Bytes → Program α)
  /-- Changes the block of a role; ends with the error of the edit if it has one. -/
  | edit (role : Role) (change : Edit) (next : Program α)
  /-- Reads the chain pointers. -/
  | pointers (next : Pointers → Program α)
  /-- Sets the chain pointers. -/
  | setPointers (p : Pointers) (next : Program α)

namespace Program

variable {α β : Type}

def bind : Program α → (α → Program β) → Program β
  | done a, f => f a
  | fail e, _ => fail e
  | load role pos read next, f => load role pos read (next.bind f)
  | view role next, f => view role fun image => (next image).bind f
  | edit role change next, f => edit role change (next.bind f)
  | pointers next, f => pointers fun p => (next p).bind f
  | setPointers p next, f => setPointers p (next.bind f)

instance : Monad Program where
  pure := done
  bind := bind

def ofExcept : Except Error α → Program α
  | .ok a => done a
  | .error e => fail e

instance : MonadLift (Except Error) Program where
  monadLift := ofExcept

def image (role : Role) : Program Bytes := view role done

def loadBlock (role : Role) (pos : BlockPos) : Program Unit := load role pos true (done ())

def getPointers : Program Pointers := pointers done

def modifyPointers (f : Pointers → Pointers) : Program Unit :=
  pointers fun p => setPointers (f p) (done ())

def loadNode (l : Layout) (role : Role) (pos : BlockPos) : Program Node := do
  if pos.isNull then fail (.corrupt .linkToHeader)
  loadBlock role pos
  ofExcept (Node.decode l pos (← image role))

def loadLeaf (l : Layout) (role : Role) (pos : BlockPos) : Program (List Entry) := do
  match ← loadNode l role pos with
  | .leaf entries => return entries
  | .branch _ => fail (.corrupt (.leafExpected pos))

def loadBranch (l : Layout) (role : Role) (pos : BlockPos) : Program Branch := do
  match ← loadNode l role pos with
  | .branch b => return b
  | .leaf _ => fail (.corrupt (.branchExpected pos))

/-- Loads the block at `pos` and makes a node of it. -/
def storeNode (l : Layout) (role : Role) (pos : BlockPos) (n : Node) : Program Unit :=
  load role pos true (edit role (Edit.replace fun size => n.encode l size) (done ()))

end Program

end PagedIndex
