import PagedIndex.Cache.Transfer
import PagedIndex.Proofs.Effect

/-!
# How accesses fail

An access to a store is refused for a reason of the storage, whatever is asked for, and a block that
is read may be cut off by the end of its file. There are no other failures of a disk.

## Main definitions

* `Error.OfDisk`, `Error.OfPool`, `Error.OfCache` — the failures of a disk, of buffers, and of a
  cache.

## Main statements

* `Store.ask_fails`, `Store.read_fails`, `Store.write_fails` — accesses to a store.
* `Cache.readImage_fails` — a block is read.
-/

namespace PagedIndex

/-- The failures of a disk: an access is refused, or a block is cut off. -/
inductive Error.OfDisk : Error → Prop
  | io (cause : IoCause) : OfDisk (.io cause)
  | lock (cause : IoCause) : OfDisk (.lock cause)
  | cutOff (pos : BlockPos) (got wanted : Nat) : OfDisk (.corrupt (.shortRead pos got wanted))

/-- The failures that tell of buffers which are not as they should be. -/
inductive Error.OfPool : Error → Prop
  | noHeldBlock (role : Role) : OfPool (.internal (.noHeldBlock role))
  | noEvictableBuffer : OfPool (.internal .noEvictableBuffer)
  | emptyBuffer : OfPool (.internal .emptyBuffer)
  | unregisteredBuffer : OfPool (.internal .unregisteredBuffer)

theorem Error.OfPool.exists_fault {e : Error} (h : e.OfPool) : ∃ f, e = .internal f := by
  cases h <;> exact ⟨_, rfl⟩

/-- The failures of a cache: those of its disk, a file that it does not know, and buffers that are
not as they should be. -/
inductive Error.OfCache : Error → Prop
  | disk {e : Error} (h : e.OfDisk) : OfCache e
  | unknown : OfCache .invalidHandle
  | pool {e : Error} (h : e.OfPool) : OfCache e

/-! ## Accesses to a store -/

namespace Store

variable (s : Store) (offset : Nat)

theorem ask_fails (access : Access) (length : Nat) :
    Fails Error.OfDisk (s.ask access offset length) := by
  unfold ask
  refine .get_bind fun d _ => Fails.modify.bind fun _ _ => ?_
  split
  · exact .pure trivial
  · apply Guarantee.Meets.throw
    cases access <;> constructor

theorem fault_fails {α : Type} (f : SystemFault) : Fails Error.OfDisk (fault f : DiskM α) :=
  .throw (.io _)

theorem read_fails (length : Nat) : Fails Error.OfDisk (s.read offset length) := by
  have hcontents : Fails Error.OfDisk (do
      return ((← get).volume s.volume).contents.read offset length : DiskM Bytes) :=
    .get_bind fun d _ => .pure trivial
  unfold read
  refine (s.ask_fails offset .read length).bind fun _ _ => ?_
  split
  · exact (fault_fails _).bind fun _ _ => hcontents
  · exact .ite_bind (fault_fails _) hcontents
  · exact hcontents

theorem put_fails (data : Bytes) : Fails Error.OfDisk (s.put offset data) := .modify

theorem write_fails (data : Bytes) : Fails Error.OfDisk (s.write offset data) := by
  unfold write
  refine (s.ask_fails offset .write data.length).bind fun _ _ => .get_bind fun d _ =>
    .ite_bind (.throw (.io _)) ?_
  split
  · exact s.put_fails offset data
  · split
    · exact fault_fails _
    · split
      · exact .pure trivial
      · split
        · exact s.put_fails offset data
        · exact fault_fails _
  · exact fault_fails _

theorem openFile_fails (name : String) (writable : Bool) :
    Fails Error.OfDisk (openFile name writable) := by
  refine .get_bind fun d _ => ?_
  split
  · exact .throw (.io _)
  · exact fault_fails _
  · split
    · exact fault_fails _
    · exact Fails.of_ends fun _ => nofun
  · exact .pure trivial

theorem createFile_fails (name : String) : Fails Error.OfDisk (createFile name) := by
  refine .get_bind fun d _ => ?_
  split
  · exact .throw (.io _)
  · exact fault_fails _
  · exact Fails.of_ends fun _ => nofun
  · exact Fails.of_ends fun _ => nofun

end Store

theorem Cache.readImage_fails (store : Store) (pos : BlockPos) (blockSize : Nat) :
    Fails Error.OfDisk (readImage store pos blockSize) := by
  unfold readImage
  refine (store.read_fails pos.offset blockSize).bind fun got _ => ?_
  split
  · exact .pure trivial
  · split
    · exact .pure trivial
    · exact .throw (.cutOff pos _ _)

end PagedIndex
