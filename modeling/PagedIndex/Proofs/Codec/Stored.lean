import PagedIndex.Proofs.Codec.Blocks

/-!
# Blocks hold what is written into them

Whether a value goes into a block is told by its size alone. If it does, the block holds it and
nothing else: its image does not depend on what the block held before, and the value is read back
from it.

## Main definitions

* `Layout.Keeps` — a write and a read of a block that belong together.

## Main statements

* `Layout.keeps_of_roomy` — leaves, branches, slot blocks and the links of deleted blocks are kept.
-/

namespace PagedIndex

namespace Layout

variable {α : Type}

/-- Blocks keep a value whose written form takes `size` bytes. If the value fits, every block takes
it, and has one image afterwards: the written form with the ending behind it, from which the value
is read back. If it does not fit, every block stays as it was. -/
structure Keeps (l : Layout) (write : Edit) (read : Bytes → Except Error α) (a : α) (size : Nat) :
    Prop where
  written : l.fits size → ∃ body : Bytes, body.length = size ∧
    (body ++ BlockImage.ending l (l.blockSize - size)).length = l.blockSize ∧
    (∀ old : Bytes, old.length = l.blockSize →
      write old = (body ++ BlockImage.ending l (l.blockSize - size), .ok ())) ∧
    read (body ++ BlockImage.ending l (l.blockSize - size)) = .ok a
  refused : ¬l.fits size → ∀ old : Bytes, old.length = l.blockSize →
    write old = (old, .error (.internal (.blockTooLong size l.blockSize)))

variable {l : Layout} {read : Bytes → Except Error α} {a : α}

/-- A value is kept if its written form is what a block is closed with, and it is read back from any
image that it is closed to. -/
theorem Keeps.of_close {encode : Nat → Except Error Bytes} {body : Bytes}
    (hencode : ∀ n, encode n = BlockImage.close l n body)
    (hread : l.fits body.length → ∃ image, encode l.blockSize = .ok image ∧ read image = .ok a) :
    l.Keeps (.replace encode) read a body.length := by
  refine ⟨fun hfits => ?_, fun hfits old hold => ?_⟩
  · obtain ⟨hclose, hsize, -⟩ := BlockImage.close_eq_ok hfits
    obtain ⟨image, himage, hback⟩ := hread hfits
    obtain rfl := Except.ok.inj ((hencode _ ▸ himage).symm.trans hclose)
    refine ⟨body, rfl, hsize, fun old hold => ?_, hback⟩
    simp only [Edit.replace, hold, himage]
  · have hclose : BlockImage.close l l.blockSize body =
        .error (.internal (.blockTooLong body.length l.blockSize)) := by
      unfold BlockImage.close
      rw [if_pos (by simp [hfits])]
    simp only [Edit.replace, hold, hencode, hclose]

end Layout

variable {l : Layout}

theorem Leaf.keeps (hkey : 1 ≤ l.keyLength) {es : List Entry} (hes : Storable l none es) :
    l.Keeps (.replace fun n => encode l n es) (decode l) es (encodedSize l es) := by
  obtain ⟨b, hb, hlen, -⟩ := encodeEntries_eq_ok hkey hes
  have hsize : (BlockKind.leaf.tag :: b).length = encodedSize l es := by
    rw [List.length_cons, hlen, encodedSize, Nat.add_comm]
  rw [← hsize]
  refine .of_close (fun n => ?_) fun hfits => ?_
  · simp only [encode, hb, bind, Except.bind]
  · rw [hsize] at hfits
    obtain ⟨image, himage, -, -, hback⟩ := encode_eq_ok hkey hes hfits
    exact ⟨image, himage, hback⟩

theorem Branch.keeps (hkey : 1 ≤ l.keyLength) {b : Branch} (hfirst : b.first.offset ≤ l.maxRecord)
    (hss : ∀ s ∈ b.separators, StorableLink l s) :
    l.Keeps (.replace fun n => encode l n b) (decode l) b (b.encodedSize l) := by
  obtain ⟨c, hc, hlen, -⟩ := encodeSeparators_eq_ok hkey hss
  have hlink := Position.encode_eq_ok hfirst
  have hwidth : (Position.field l.format b.first.offset).length = l.positionWidth :=
    Position.length_field _ _
  have hsize : (BlockKind.branch.tag :: (Position.field l.format b.first.offset ++ c)).length =
      b.encodedSize l := by
    rw [List.length_cons, List.length_append, hwidth, hlen, encodedSize, Layout.branchStart]
    omega
  rw [← hsize]
  refine .of_close (fun n => ?_) fun hfits => ?_
  · simp only [encode, hlink, hc, bind, Except.bind]
  · rw [hsize] at hfits
    obtain ⟨image, himage, -, -, hback⟩ := encode_eq_ok hkey hfirst hss hfits
    exact ⟨image, himage, hback⟩

theorem Slots.keeps {s : Slots} (hnext : s.next.offset ≤ l.maxRecord)
    (hrecords : ∀ r ∈ s.records, r ≤ l.maxRecord) :
    l.Keeps (.replace fun n => encode l n s) (decode l) s (s.encodedSize l) := by
  obtain ⟨c, hc, hlen, -⟩ := encodeRecords_eq_ok hrecords
  have hlink := Position.encode_eq_ok hnext
  have hwidth : (Position.field l.format s.next.offset).length = l.positionWidth :=
    Position.length_field _ _
  have hsize : (BlockKind.slots.tag :: (Position.field l.format s.next.offset ++ c)).length =
      s.encodedSize l := by
    rw [List.length_cons, List.length_append, hwidth, hlen, encodedSize, Nat.mul_add, Nat.mul_one]
    omega
  rw [← hsize]
  refine .of_close (fun n => ?_) fun hfits => ?_
  · simp only [encode, hlink, hc, bind, Except.bind]
  · rw [hsize] at hfits
    obtain ⟨image, himage, -, -, hback⟩ := encode_eq_ok hnext hrecords hfits
    exact ⟨image, himage, hback⟩

/-- A link fits in every block that is wide enough for separators. -/
theorem Layout.Roomy.fits_link (hl : l.Roomy) : l.fits (1 + l.positionWidth) := by
  have hroom := hl.2
  have hend : l.endSize ≤ 1 := Leaf.endSize_le_one
  simp only [Layout.minBlockSize, Layout.branchStart] at hroom
  simp only [Layout.fits, decide_eq_true_eq]
  omega

theorem Deleted.keeps (hl : l.Roomy) (pos : BlockPos) {next : BlockPos}
    (hnext : next.offset ≤ l.maxRecord) :
    l.Keeps (stamp l next) (decode l pos) next (1 + l.positionWidth) := by
  have hlink := Position.encode_eq_ok hnext
  have hwidth : (Position.field l.format next.offset).length = l.positionWidth :=
    Position.length_field _ _
  have hfits : 1 + l.positionWidth + l.endSize ≤ l.blockSize := by
    simpa [Layout.fits] using hl.fits_link
  refine ⟨fun _ => ?_, fun h => absurd hl.fits_link h⟩
  have hstamp : ∀ old : Bytes, old.length = l.blockSize → stamp l next old =
      (BlockKind.deleted.tag :: Position.field l.format next.offset ++
        BlockImage.ending l (l.blockSize - (1 + l.positionWidth)), .ok ()) := by
    intro old hold
    unfold stamp
    rw [hlink, if_neg (by omega)]
    simp only
    rw [if_neg (by omega), hold, List.cons_append]
  refine ⟨_, ?_, ?_, hstamp, ?_⟩
  · rw [List.length_cons, hwidth, Nat.add_comm]
  · rw [List.length_append, BlockImage.length_ending, List.length_cons, hwidth]
    omega
  · obtain ⟨image, himage, -, hback⟩ :=
      @stamp_eq_ok _ _ hnext (List.replicate l.blockSize filler) (by simpa using hfits)
    rw [hstamp _ List.length_replicate] at himage
    cases himage
    exact hback pos

/-- Leaves, branches, slot blocks and the links of deleted blocks are kept if their keys have the
key length and do not read as the end of a block, and no position in them is too large. -/
theorem Layout.keeps_of_roomy (hl : l.Roomy) :
    (∀ es : List Entry, (∀ e ∈ es, e.Storable l) →
      l.Keeps (.replace fun n => Leaf.encode l n es) (Leaf.decode l) es (Leaf.encodedSize l es)) ∧
    (∀ b : Branch, b.first.offset ≤ l.maxRecord → (∀ s ∈ b.separators, Branch.StorableLink l s) →
      l.Keeps (.replace fun n => b.encode l n) (Branch.decode l) b (b.encodedSize l)) ∧
    (∀ s : Slots, s.next.offset ≤ l.maxRecord → (∀ r ∈ s.records, r ≤ l.maxRecord) →
      l.Keeps (.replace fun n => s.encode l n) (Slots.decode l) s (s.encodedSize l)) ∧
    ∀ pos next : BlockPos, next.offset ≤ l.maxRecord →
      l.Keeps (Deleted.stamp l next) (Deleted.decode l pos) next (1 + l.positionWidth) :=
  ⟨fun _ hes => Leaf.keeps hl.1 (.of_forall hes none), fun _ hfirst hss => Branch.keeps hl.1 hfirst hss,
    fun _ hnext hrecords => Slots.keeps hnext hrecords, fun pos _ hnext => Deleted.keeps hl pos hnext⟩

/-- Seventy entries of one key of the greatest length. -/
def Leaf.repeating : List Entry := (List.range 70).map fun i => ⟨List.replicate 255 0x41, i⟩

/-- They fill a modern block to the last byte, and are read back from it. One more does not fit, and
a block that is to take it stays as it was. The other kinds of blocks are read back, too. -/
theorem Leaf.keeps_repeating :
    let l : Layout := ⟨255, 814, .modern⟩
    let old : Bytes := List.replicate 814 0
    let overflowing := ⟨List.replicate 255 0x40, 0⟩ :: Leaf.repeating
    let branch : Branch := ⟨⟨814⟩, [(⟨List.replicate 255 0x41, 7⟩, ⟨1628⟩)]⟩
    let slots : Slots := ⟨⟨2442⟩, [3, 1, 3]⟩
    l.Roomy ∧
    (∃ image : Bytes, image.length = 814 ∧ Leaf.decode l image = .ok Leaf.repeating ∧
      Edit.replace (Leaf.encode l · Leaf.repeating) old = (image, .ok ())) ∧
    Edit.replace (Leaf.encode l · overflowing) old =
      (old, .error (.internal (.blockTooLong 1076 814))) ∧
    (∃ image, Branch.decode l image = .ok branch ∧
      Edit.replace (Branch.encode l · branch) old = (image, .ok ())) ∧
    (∃ image, Slots.decode l image = .ok slots ∧
      Edit.replace (Slots.encode l · slots) old = (image, .ok ())) ∧
    ∃ image, Deleted.decode l ⟨814⟩ image = .ok ⟨1628⟩ ∧
      Deleted.stamp l ⟨1628⟩ old = (image, .ok ()) := by
  intro l old overflowing branch slots
  have hl : l.Roomy := by decide
  have hes : ∀ e ∈ overflowing, e.Storable l := by decide +kernel
  have hold : old.length = l.blockSize := List.length_replicate
  obtain ⟨hleaf, hbranch, hslots, hdeleted⟩ := Layout.keeps_of_roomy hl
  refine ⟨hl, ?_, ?_, ?_, ?_, ?_⟩
  · have hkept := hleaf Leaf.repeating fun e he => hes e (List.mem_cons_of_mem _ he)
    rw [show Leaf.encodedSize l Leaf.repeating = 814 by decide +kernel] at hkept
    obtain ⟨body, -, hlen, hwrite, hread⟩ := hkept.written (by decide)
    exact ⟨_, hlen, hread, hwrite _ hold⟩
  · have hkept := hleaf overflowing hes
    rw [show Leaf.encodedSize l overflowing = 1076 by decide +kernel] at hkept
    exact hkept.refused (by decide) _ hold
  · have hkept := hbranch branch (by decide) fun s hs => by
      rw [List.mem_singleton.mp hs]
      exact ⟨by decide +kernel, by decide⟩
    obtain ⟨body, -, -, hwrite, hread⟩ := hkept.written (by decide)
    exact ⟨_, hread, hwrite _ hold⟩
  · obtain ⟨body, -, -, hwrite, hread⟩ := (hslots slots (by decide) (by decide)).written (by decide)
    exact ⟨_, hread, hwrite _ hold⟩
  · obtain ⟨body, -, -, hwrite, hread⟩ := (hdeleted ⟨814⟩ ⟨1628⟩ (by decide)).written (by decide)
    exact ⟨_, hread, hwrite _ hold⟩

end PagedIndex
