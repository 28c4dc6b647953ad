import PagedIndex.Index.Options
import PagedIndex.Proofs.Codec.Admitted
import PagedIndex.Proofs.Disk.Failures
import PagedIndex.Tree.Delete

/-!
# Failures of buffers

A cache and its sessions have failures of their own, which tell of buffers that are not as they
should be. Nothing that reads or writes the bytes of a block fails so, whatever the bytes are.

## Main definitions

* `Unpooled` — a result that is none of them.

## Main statements

* `Node.unpooled_decode`, `Node.unpooled_encode` — tree blocks are read and written.
* `Header.unpooled_encode` — so is the first block of a file.
-/

namespace PagedIndex

/-- A result that does not tell of a buffer. -/
def Unpooled {α : Type} (r : Except Error α) : Prop := ∀ e, r = .error e → ¬e.OfPool

namespace Unpooled

variable {α β : Type} {x : Except Error α}

theorem ok {a : α} : Unpooled (.ok a) := nofun

theorem error_iff {e : Error} : Unpooled (.error e : Except Error α) ↔ ¬e.OfPool :=
  ⟨fun h => h e rfl, fun h e' he => by cases he; exact h⟩

theorem error {e : Error} (he : ¬e.OfPool) : Unpooled (.error e : Except Error α) := error_iff.mpr he

theorem corrupt {d : Corruption} : Unpooled (.error (.corrupt d) : Except Error α) := error nofun

/-- A failure stays what it is when the value is another one. -/
theorem cast {e : Error} (h : Unpooled (.error e : Except Error α)) :
    Unpooled (.error e : Except Error β) :=
  error (error_iff.mp h)

theorem bind {f : α → Except Error β} (hx : Unpooled x) (hf : ∀ a, Unpooled (f a)) :
    Unpooled (x >>= f) := by
  cases x with
  | ok a => exact hf a
  | error e => exact hx.cast

theorem map {f : α → β} (hx : Unpooled x) : Unpooled (x.map f) := by
  cases x with
  | ok a => exact ok
  | error e => exact hx.cast

theorem of_judges (h : Judges x) : Unpooled x := by
  obtain ⟨a, rfl⟩ | ⟨d, rfl⟩ := h
  · exact ok
  · exact error nofun

end Unpooled

variable {l : Layout} {pos : BlockPos} {x : Bytes}

theorem Position.unpooled_encode (format : Format) (n : Nat) : Unpooled (encode format n) := by
  unfold encode
  split
  · exact .error nofun
  · exact .ok

theorem BlockImage.unpooled_close (size : Nat) (body : Bytes) : Unpooled (close l size body) := by
  unfold close
  split
  · exact .error nofun
  · exact .ok

/-! ## Tree blocks -/

theorem Entry.unpooled_encode (previous : Option Entry) (e : Entry) :
    Unpooled (encode l previous e) :=
  (Position.unpooled_encode _ _).bind fun record => by split <;> exact .ok

theorem Leaf.unpooled_encode (size : Nat) (es : List Entry) : Unpooled (encode l size es) := by
  have hall : ∀ (es : List Entry) (previous : Option Entry),
    Unpooled (encodeEntries l previous es) := by
    intro es
    induction es with
    | nil => exact fun _ => .ok
    | cons e rest ih =>
      exact fun previous => (Entry.unpooled_encode _ _).bind fun _ => (ih _).bind fun _ => .ok
  exact (hall es none).bind fun _ => BlockImage.unpooled_close _ _

theorem Branch.unpooled_encode (size : Nat) (b : Branch) : Unpooled (encode l size b) := by
  have hone : ∀ s, Unpooled (encodeSeparator l s) := by
    intro s
    unfold encodeSeparator
    split
    · exact .error nofun
    · exact (Position.unpooled_encode _ _).bind fun _ =>
        (Position.unpooled_encode _ _).bind fun _ => .ok
  have hall : ∀ ss, Unpooled (encodeSeparators l ss) := by
    intro ss
    induction ss with
    | nil => exact .ok
    | cons s rest ih => exact (hone s).bind fun _ => ih.bind fun _ => .ok
  exact (Position.unpooled_encode _ _).bind fun _ => (hall _).bind fun _ =>
    BlockImage.unpooled_close _ _

namespace Node

theorem unpooled_encode (size : Nat) (n : Node) : Unpooled (n.encode l size) := by
  cases n with
  | leaf es => exact Leaf.unpooled_encode size es
  | branch b => exact Branch.unpooled_encode size b

theorem unpooled_decode : Unpooled (decode l pos x) := by
  unfold decode
  split
  · exact (Unpooled.of_judges Leaf.judges_decode).map
  · exact (Unpooled.of_judges Branch.judges_decode).map
  · exact .error nofun

theorem unpooled_merge (left : Node) (separator : Entry) (right : Node) :
    Unpooled (merge left separator right) := by
  unfold merge
  split
  · exact .ok
  · exact .ok
  · exact .error nofun

end Node

/-! ## Free space -/

namespace Slots

theorem unpooled_encode (size : Nat) (s : Slots) : Unpooled (s.encode l size) := by
  have hall : ∀ records, Unpooled (encodeRecords l records) := by
    intro records
    induction records with
    | nil => exact .ok
    | cons r rest ih => exact (Position.unpooled_encode _ _).bind fun _ => ih.bind fun _ => .ok
  exact (Position.unpooled_encode _ _).bind fun _ => (hall _).bind fun _ =>
    BlockImage.unpooled_close _ _

theorem unpooled_decodeRecords (fuel : Nat) (b : Bytes) : Unpooled (decodeRecords l fuel b) := by
  induction fuel generalizing b with
  | zero => exact .ok
  | succ fuel ih =>
    cases b with
    | nil => exact .ok
    | cons next rest =>
      unfold decodeRecords
      dsimp only
      split
      · exact .ok
      · split
        · exact .corrupt
        · exact (ih _).bind fun _ => .ok

theorem unpooled_decode : Unpooled (decode l x) := by
  unfold decode
  refine (Unpooled.of_judges (BlockImage.judges_expect _)).bind fun _ => ?_
  split
  · exact .error nofun
  · exact (unpooled_decodeRecords _ _).bind fun _ => .ok

end Slots

namespace Deleted

theorem unpooled_decode : Unpooled (decode l pos x) := by
  unfold decode
  split
  · exact .error nofun
  · split
    · exact .error nofun
    · exact .ok

theorem unpooled_stamp (next : BlockPos) : Unpooled (stamp l next x).2 := by
  have hencode := Position.unpooled_encode l.format next.offset
  unfold stamp
  dsimp only
  split
  · exact .error nofun
  · split
    · next e he => exact .cast (he ▸ hencode)
    · split
      · exact .error nofun
      · exact .ok

end Deleted

theorem Edit.unpooled_replace {image : Nat → Except Error Bytes} (h : ∀ size, Unpooled (image size)) :
    Unpooled (replace image x).2 := by
  unfold replace
  split
  · exact .ok
  · next e he => exact .cast (he ▸ h x.length)

/-! ## Headers -/

theorem Pointers.unpooled_write (format : Format) (p : Pointers) : Unpooled (write format p x).2 := by
  unfold write
  generalize (offsets format).zip p.fields = fields
  induction fields generalizing x with
  | nil => exact .ok
  | cons f rest ih =>
    have hencode := Position.unpooled_encode format f.2.offset
    unfold writeFields
    split
    · next e he => exact .cast (he ▸ hencode)
    · exact ih

theorem Header.unpooled_encode (h : Header) : Unpooled h.encode := by
  unfold encode
  split
  · exact .error nofun
  · dsimp only
    split
    · exact .error nofun
    · split
      · exact .error nofun
      · exact (Pointers.unpooled_write _ _).bind fun _ => .ok

end PagedIndex
