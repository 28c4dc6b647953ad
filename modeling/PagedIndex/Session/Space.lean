import PagedIndex.Block.Free
import PagedIndex.Session.Program

/-!
# Free space

Two chains start in the header. Deleted blocks form a chain that new blocks are taken from before
the file grows. Files of fixed records also list record positions for reuse in a chain of slot
blocks.

## Main definitions

* `Program.allocate`, `Program.free` — blocks.
* `Program.popSlot`, `Program.pushSlot` — record positions.
-/

namespace PagedIndex

namespace Program

variable (l : Layout)

/-- Takes a block for a role, filled: the deleted block freed last, or else a new one behind the
last block of the file. -/
def allocate (role : Role) : Program BlockPos := do
  let p ← getPointers
  if p.freeHead.isNull then
    let pos := p.highWater.following l.blockSize
    if pos.offset > l.maxRecord then fail (.internal .sizeLimit)
    load role pos false <| edit role Edit.clear <|
      setPointers { p with highWater := pos } <| return pos
  else
    let pos := p.freeHead
    loadBlock role pos
    let next ← Deleted.decode l pos (← image role)
    edit role Edit.clear <| setPointers { p with freeHead := next } <| return pos

/-- Puts a block on the chain of deleted blocks. -/
def free (role : Role) (pos : BlockPos) : Program Unit := do
  if pos.isNull then fail (.internal .freeingHeader)
  let p ← getPointers
  load role pos true <| edit role (Deleted.stamp l p.freeHead) <|
    setPointers { p with freeHead := pos } <| return ()

def loadSlots (pos : BlockPos) : Program Slots := do
  loadBlock .current pos
  let block ← image .current
  if block.head? ≠ some BlockKind.slots.tag then fail (.corrupt (.notSlotBlock pos))
  Slots.decode l block

def storeSlots (s : Slots) : Program Unit :=
  edit .current (Edit.replace fun size => s.encode l size) (return ())

/-- Takes the oldest record position of the first slot block. -/
def popSlot : Program (Option Nat) := do
  let p ← getPointers
  let head := p.slotHead
  if head.isNull then return none
  let slots ← loadSlots l head
  match slots.records with
  | [] => fail (.corrupt (.emptySlotBlock head))
  | [record] =>
    setPointers { p with slotHead := slots.next } (free l .current head)
    return some record
  | record :: rest =>
    storeSlots l { slots with records := rest }
    return some record

def pushNewSlot (next : BlockPos) (record : Nat) : Program Unit := do
  let pos ← allocate l .current
  storeSlots l ⟨next, [record]⟩
  modifyPointers fun p => { p with slotHead := pos }

/-- Lists a record position for reuse, in the first slot block if there is room. -/
def pushSlot (record : Nat) : Program Unit := do
  let head := (← getPointers).slotHead
  if head.isNull then pushNewSlot l head record
  else
    let slots ← loadSlots l head
    if slots.hasRoom l then storeSlots l { slots with records := slots.records ++ [record] }
    else pushNewSlot l head record

end Program

end PagedIndex
