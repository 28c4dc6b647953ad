import PagedIndex.Proofs.Codec.Position
import PagedIndex.Proofs.Codec.Size
import PagedIndex.Block.Free
import PagedIndex.Header.Pointers

/-!
# Blocks can be read back

What is written into a block is read back from it: tree blocks, slot blocks, the links of deleted
blocks, and the chain pointers of the header.

## Main definitions

* `Node.Storable` — tree blocks that can be written.
* `Entry.StorableBehind`, `Leaf.Storable` — what a leaf can hold; an entry that is compressed may
  begin with the end mark.

## Main statements

* `Node.encode_eq_ok` — a tree block that fits is written and read back.
* `Slots.encode_eq_ok`, `Deleted.stamp_eq_ok`, `Pointers.write_eq_ok` — the same for the others.
-/

namespace PagedIndex

variable {l : Layout}

namespace Entry

/-- Whether an entry can be written behind `previous`. Its key must not read as the end of a block
if it is written whole. -/
def StorableBehind (l : Layout) (previous : Option Entry) (e : Entry) : Prop :=
  e.key.length = l.keyLength ∧ (base? l previous = none → e.key.head? ≠ some l.endMark) ∧
    e.record ≤ l.maxRecord

theorem Storable.behind {e : Entry} (he : e.Storable l) (previous : Option Entry) :
    e.StorableBehind l previous :=
  ⟨he.1, fun _ => he.2.1, he.2.2⟩

theorem decodeAfter_append {shared : Nat} {start : Bytes} {e : Entry}
    (hlength : e.key.length = l.keyLength) (hrecord : e.record ≤ l.maxRecord)
    (hstart : start.take shared = e.key.take shared)
    (hlong : shared ≤ start.length) (rest : Bytes) :
    decodeAfter l shared start
        (e.key.drop shared ++ (Position.field l.format e.record ++ rest)) =
      .ok (e, l.keyLength - shared + l.positionWidth) := by
  have hfield : (Position.field l.format e.record).length = l.positionWidth :=
    Position.length_field _ _
  have hdrop : (e.key.drop shared).length = l.keyLength - shared := by simp [hlength]
  have htake : (e.key.drop shared ++ (Position.field l.format e.record ++ rest)).take
      (l.keyLength - shared + l.positionWidth) =
        e.key.drop shared ++ Position.field l.format e.record := by
    rw [← List.append_assoc]
    exact List.take_left' (by simp [hdrop, hfield])
  unfold decodeAfter
  simp only [htake]
  rw [if_neg (by simp [hfield, hlength]), if_neg (by omega), List.take_left' hdrop,
    List.drop_left' hdrop, hstart, List.take_append_drop]
  have := Position.decode_field hrecord []
  rw [List.append_nil] at this
  rw [this]

/-- The written form of an entry behind another one: its size, its first byte, and that it reads
back whatever stands behind it. -/
theorem encode_eq_ok {previous : Option Entry} {e : Entry} (he : e.StorableBehind l previous)
    (hkey : 1 ≤ l.keyLength) :
    ∃ b, encode l previous e = .ok b ∧ b.length = encodedSize l previous e ∧
      (∃ next, b.head? = some next ∧ next ≠ l.endMark) ∧
      ∀ rest, decode l previous (b ++ rest) = .ok (e, b.length) := by
  have hfield : (Position.field l.format e.record).length = l.positionWidth :=
    Position.length_field _ _
  have hrecord := Position.encode_eq_ok he.2.2
  unfold encode encodedSize decode
  rw [hrecord]
  cases hbase : base? l previous with
  | none =>
    refine ⟨e.key ++ Position.field l.format e.record, rfl, ?_, ?_, fun rest => ?_⟩
    · simp [he.1, hfield, Layout.entrySize]
    · cases hk : e.key with
      | nil => have := he.1; simp [hk] at this; omega
      | cons next key => exact ⟨next, rfl, fun h => he.2.1 hbase (by simp [hk, h])⟩
    · have := @decodeAfter_append l 0 [] e he.1 he.2.2 (by simp) (by simp) rest
      simpa [he.1, hfield] using this
  | some p =>
    have hp : p ∈ previous ∧ l.format = .modern := by
      unfold base? at hbase
      cases hf : l.format with
      | modern => rw [hf] at hbase; exact ⟨hbase, rfl⟩
      | legacy => rw [hf] at hbase; simp at hbase
    have hle : Key.shared p.key e.key ≤ l.keyLength := he.1 ▸ Key.shared_le_right p.key e.key
    have hmax : Key.shared p.key e.key ≤ 254 := Key.shared_le_maxShared p.key e.key
    have hcount : (UInt8.ofNat (Key.shared p.key e.key)).toNat = Key.shared p.key e.key := by
      simp; omega
    refine ⟨_, rfl, ?_, ⟨_, rfl, ?_⟩, fun rest => ?_⟩
    · simp [he.1, hfield, Layout.entrySize]; omega
    · intro h
      have : l.endMark.toNat = 255 := by
        unfold Layout.endMark
        rw [hp.2]
        rfl
      rw [← h, hcount] at this
      omega
    · simp only [List.cons_append, List.append_assoc]
      rw [hcount, if_neg (by omega), decodeAfter_append he.1 he.2.2 (Key.take_shared _ _)
        (Key.shared_le_left _ _)]
      simp [Except.map, he.1, hfield]

end Entry

namespace BlockImage

theorem length_ending (room : Nat) : (ending l room).length = room := by
  cases room <;> simp [ending]

/-- What stands behind the contents of a block: the end mark, or nothing in a full modern block. -/
theorem ending_cases {room : Nat} (h : l.endSize ≤ room) :
    (ending l room = [] ∧ l.format = .modern) ∨ ∃ rest, ending l room = l.endMark :: rest := by
  cases room with
  | zero =>
    refine .inl ⟨rfl, ?_⟩
    unfold Layout.endSize at h
    cases hf : l.format with
    | modern => rfl
    | legacy => simp [hf] at h
  | succ room => exact .inr ⟨_, rfl⟩

/-- Contents that fit are completed to an image of the whole block. -/
theorem close_eq_ok {body : Bytes} (h : l.fits body.length) :
    close l l.blockSize body = .ok (body ++ ending l (l.blockSize - body.length)) ∧
      (body ++ ending l (l.blockSize - body.length)).length = l.blockSize ∧
      l.endSize ≤ l.blockSize - body.length := by
  have hle : body.length + l.endSize ≤ l.blockSize := by simpa [Layout.fits] using h
  refine ⟨?_, ?_, by omega⟩
  · unfold close
    rw [h]
    simp; omega
  · rw [List.length_append, length_ending]
    omega

/-- Contents that do not fit are refused. -/
theorem fits_of_close {body image : Bytes} (h : close l l.blockSize body = .ok image) :
    l.fits body.length := by
  unfold close at h
  split at h
  · cases h
  · next hfits =>
    simp only [Bool.or_eq_true, Bool.not_eq_true', not_or, Bool.not_eq_false] at hfits
    exact hfits.1

theorem used_of_length {image : Bytes} (h : image.length = l.blockSize) : used l image = image := by
  rw [used, Bytes.front_eq_take, List.take_of_length_le (by omega)]

end BlockImage

namespace Leaf

/-- Entries that can be written one behind the other, the first of them behind `previous`. -/
def Storable (l : Layout) : Option Entry → List Entry → Prop
  | _, [] => True
  | previous, e :: rest => e.StorableBehind l previous ∧ Storable l (some e) rest

theorem Storable.of_forall {es : List Entry} (hes : ∀ e ∈ es, e.Storable l)
    (previous : Option Entry) : Storable l previous es := by
  induction es generalizing previous with
  | nil => trivial
  | cons e rest ih =>
    exact ⟨(hes e List.mem_cons_self).behind previous,
      ih (fun e' he' => hes e' (List.mem_cons_of_mem _ he')) (some e)⟩

theorem encodeEntries_eq_ok {previous : Option Entry} {es : List Entry}
    (hkey : 1 ≤ l.keyLength) (hes : Storable l previous es) :
    ∃ b, encodeEntries l previous es = .ok b ∧ b.length = entriesSize l previous es ∧
      ∀ room fuel, l.endSize ≤ room → (b ++ BlockImage.ending l room).length ≤ fuel →
        decodeEntries l fuel previous (b ++ BlockImage.ending l room) = .ok es := by
  induction es generalizing previous with
  | nil =>
    refine ⟨[], rfl, rfl, fun room fuel hroom hfuel => ?_⟩
    rcases BlockImage.ending_cases hroom with ⟨h, hmodern⟩ | ⟨rest, h⟩
    · rw [h]
      cases fuel <;> simp [decodeEntries, hmodern]
    · rw [h] at hfuel ⊢
      cases fuel with
      | zero => simp at hfuel
      | succ fuel => simp [decodeEntries]
  | cons e es ih =>
    obtain ⟨b, hb, hblen, ⟨next, hnext, hmark⟩, hread⟩ := Entry.encode_eq_ok hes.1 hkey
    obtain ⟨c, hc, hclen, hrest⟩ := ih hes.2
    refine ⟨b ++ c, ?_, ?_, fun room fuel hroom hfuel => ?_⟩
    · simp [encodeEntries, hb, hc, bind, Except.bind, pure, Except.pure]
    · simp [entriesSize, hblen, hclen]
    · cases b with
      | nil => simp at hnext
      | cons first b =>
        obtain rfl : first = next := by simpa using hnext
        cases fuel with
        | zero => simp at hfuel
        | succ fuel =>
          have hd := hread (c ++ BlockImage.ending l room)
          have hr := hrest room fuel hroom (by simp at hfuel ⊢; omega)
          rw [List.append_assoc, List.cons_append, decodeEntries, if_neg hmark]
          rw [List.cons_append] at hd
          rw [hd]
          simp only [bind, Except.bind, pure, Except.pure]
          rw [← List.cons_append, List.drop_left, hr]

theorem encode_eq_ok (hkey : 1 ≤ l.keyLength) {es : List Entry} (hes : Storable l none es)
    (hfits : fits l es) :
    ∃ image, encode l l.blockSize es = .ok image ∧ image.length = l.blockSize ∧
      image.head? = some BlockKind.leaf.tag ∧ decode l image = .ok es := by
  obtain ⟨b, hb, hlen, hread⟩ := encodeEntries_eq_ok hkey hes
  have hbody : l.fits (BlockKind.leaf.tag :: b).length := by
    rw [List.length_cons, hlen, Nat.add_comm]
    exact hfits
  obtain ⟨hclose, hsize, hroom⟩ := BlockImage.close_eq_ok hbody
  refine ⟨_, ?_, hsize, rfl, ?_⟩
  · simp [encode, hb, hclose, bind, Except.bind]
  · unfold decode
    rw [BlockImage.used_of_length hsize]
    simp only [List.cons_append, BlockImage.expect, if_pos, List.drop_succ_cons, List.drop_zero,
      bind, Except.bind]
    exact hread _ _ hroom (Nat.le_refl _)

theorem fits_of_encode (hkey : 1 ≤ l.keyLength) {es : List Entry} {image : Bytes}
    (hes : Storable l none es) (h : encode l l.blockSize es = .ok image) : fits l es := by
  obtain ⟨b, hb, hlen, -⟩ := encodeEntries_eq_ok hkey hes
  simp only [encode, hb, bind, Except.bind] at h
  have hfits := BlockImage.fits_of_close h
  rwa [List.length_cons, hlen, Nat.add_comm] at hfits

end Leaf

namespace Branch

/-- A separator with the link behind it that can be written. -/
def StorableLink (l : Layout) (s : Entry × BlockPos) : Prop :=
  s.1.Storable l ∧ s.2.offset ≤ l.maxRecord

theorem encodeSeparator_eq_ok {s : Entry × BlockPos} (hs : StorableLink l s) :
    encodeSeparator l s = .ok (s.1.key ++ (Position.field l.format s.1.record ++
      Position.field l.format s.2.offset)) := by
  have h1 := Position.encode_eq_ok hs.1.2.2
  have h2 := Position.encode_eq_ok hs.2
  simp [encodeSeparator, hs.1.1, h1, h2, bind, Except.bind, pure, Except.pure]

theorem encodeSeparators_eq_ok {ss : List (Entry × BlockPos)} (hkey : 1 ≤ l.keyLength)
    (hss : ∀ s ∈ ss, StorableLink l s) :
    ∃ b, encodeSeparators l ss = .ok b ∧ b.length = ss.length * l.separatorSize ∧
      ∀ room fuel, l.endSize ≤ room → (b ++ BlockImage.ending l room).length ≤ fuel →
        decodeSeparators l fuel (b ++ BlockImage.ending l room) = .ok ss := by
  induction ss with
  | nil =>
    refine ⟨[], rfl, by simp, fun room fuel hroom hfuel => ?_⟩
    rcases BlockImage.ending_cases hroom with ⟨h, hmodern⟩ | ⟨rest, h⟩
    · rw [h]
      cases fuel <;> simp [decodeSeparators, hmodern]
    · rw [h] at hfuel ⊢
      cases fuel with
      | zero => simp at hfuel
      | succ fuel => simp [decodeSeparators]
  | cons s ss ih =>
    have hs := hss s List.mem_cons_self
    obtain ⟨c, hc, hclen, hrest⟩ := ih fun x hx => hss x (List.mem_cons_of_mem _ hx)
    have hrec : (Position.field l.format s.1.record).length = l.positionWidth :=
      Position.length_field _ _
    have hlink : (Position.field l.format s.2.offset).length = l.positionWidth :=
      Position.length_field _ _
    have hone := encodeSeparator_eq_ok hs
    generalize hb : s.1.key ++ (Position.field l.format s.1.record ++
      Position.field l.format s.2.offset) = b at hone
    have hblen : b.length = l.separatorSize := by
      rw [← hb]
      simp [hs.1.1, hrec, hlink, Layout.separatorSize, Layout.entrySize, Nat.add_assoc]
    refine ⟨b ++ c, ?_, ?_, fun room fuel hroom hfuel => ?_⟩
    · simp [encodeSeparators, hone, hc, bind, Except.bind, pure, Except.pure]
    · simp [hblen, hclen, Nat.add_mul, Nat.add_comm]
    · cases hk : s.1.key with
      | nil => have := hs.1.1; simp [hk] at this; omega
      | cons next key =>
        have hmark : next ≠ l.endMark := fun h => hs.1.2.1 (by simp [hk, h])
        obtain ⟨tail, htail⟩ : ∃ tail, b = next :: tail := ⟨_, by rw [← hb, hk]; rfl⟩
        cases fuel with
        | zero => simp [htail] at hfuel
        | succ fuel =>
          have hr := hrest room fuel hroom (by simp [htail] at hfuel ⊢; omega)
          have htake : (b ++ (c ++ BlockImage.ending l room)).take l.separatorSize = b :=
            List.take_left' hblen
          have hdrop : (b ++ (c ++ BlockImage.ending l room)).drop l.separatorSize =
              c ++ BlockImage.ending l room := List.drop_left' hblen
          have hkeys : b.take l.keyLength = s.1.key := hb ▸ List.take_left' hs.1.1
          have hpositions : b.drop l.keyLength = Position.field l.format s.1.record ++
              Position.field l.format s.2.offset := hb ▸ List.drop_left' hs.1.1
          have hrecord := Position.decode_field hs.1.2.2 (Position.field l.format s.2.offset)
          have hchild := Position.decode_field hs.2 []
          rw [List.append_nil] at hchild
          rw [List.append_assoc, htail, List.cons_append, decodeSeparators, if_neg hmark,
            ← List.cons_append, ← htail]
          simp only [htake, hdrop]
          rw [if_neg (by omega)]
          simp only [hkeys, hpositions, hrecord, List.drop_left' hrec, hchild, hr, bind,
            Except.bind, pure, Except.pure]

theorem encode_eq_ok (hkey : 1 ≤ l.keyLength) {b : Branch} (hfirst : b.first.offset ≤ l.maxRecord)
    (hss : ∀ s ∈ b.separators, StorableLink l s) (hfits : b.fits l) :
    ∃ image, encode l l.blockSize b = .ok image ∧ image.length = l.blockSize ∧
      image.head? = some BlockKind.branch.tag ∧ decode l image = .ok b := by
  obtain ⟨c, hc, hlen, hread⟩ := encodeSeparators_eq_ok hkey hss
  have hlink := Position.encode_eq_ok hfirst
  have hwidth : (Position.field l.format b.first.offset).length = l.positionWidth :=
    Position.length_field _ _
  have hbody : l.fits
      (BlockKind.branch.tag :: (Position.field l.format b.first.offset ++ c)).length := by
    have : l.fits (b.encodedSize l) := hfits
    rwa [encodedSize, Layout.branchStart, ← hlen, ← hwidth, Nat.add_assoc, Nat.add_comm,
      ← List.length_append] at this
  obtain ⟨hclose, hsize, hroom⟩ := BlockImage.close_eq_ok hbody
  refine ⟨_, ?_, hsize, rfl, ?_⟩
  · simp [encode, hlink, hc, hclose, bind, Except.bind]
  · generalize hrest : c ++ BlockImage.ending l (l.blockSize -
      (BlockKind.branch.tag :: (Position.field l.format b.first.offset ++ c)).length) = rest at *
    have himage : BlockKind.branch.tag :: (Position.field l.format b.first.offset ++ c) ++
        BlockImage.ending l (l.blockSize -
          (BlockKind.branch.tag :: (Position.field l.format b.first.offset ++ c)).length) =
        BlockKind.branch.tag :: (Position.field l.format b.first.offset ++ rest) := by
      simp [← hrest]
    rw [himage] at hsize ⊢
    have hlong : Bytes.shorterThan
        (BlockKind.branch.tag :: (Position.field l.format b.first.offset ++ rest))
        (l.positionWidth + 1) = false := by
      rw [Bytes.shorterThan_eq_decide]
      simp [hwidth]
    have hbodyRead := hread _ rest.length hroom (Nat.le_of_eq (congrArg List.length hrest))
    rw [hrest] at hbodyRead
    simp [decode, BlockImage.expect, BlockImage.used_of_length hsize, hlong, Layout.branchStart,
      Nat.add_comm 1, List.drop_left' hwidth, Position.decode_field hfirst, hbodyRead, bind,
      Except.bind, pure, Except.pure]

theorem fits_of_encode (hkey : 1 ≤ l.keyLength) {b : Branch} {image : Bytes}
    (hfirst : b.first.offset ≤ l.maxRecord) (hss : ∀ s ∈ b.separators, StorableLink l s)
    (h : encode l l.blockSize b = .ok image) : b.fits l := by
  obtain ⟨c, hc, hlen, -⟩ := encodeSeparators_eq_ok hkey hss
  have hlink := Position.encode_eq_ok hfirst
  have hwidth : (Position.field l.format b.first.offset).length = l.positionWidth :=
    Position.length_field _ _
  simp only [encode, hlink, hc, bind, Except.bind] at h
  have hfits := BlockImage.fits_of_close h
  rw [List.length_cons, List.length_append, hwidth, hlen] at hfits
  show l.fits (b.encodedSize l)
  rwa [encodedSize, Layout.branchStart, Nat.add_assoc, Nat.add_comm]

end Branch

namespace Node

/-- Whether the entries and links of a tree block can be written. -/
def Storable (l : Layout) : Node → Prop
  | leaf es => ∀ e ∈ es, e.Storable l
  | branch b => b.first.offset ≤ l.maxRecord ∧ ∀ s ∈ b.separators, Branch.StorableLink l s

/-- A tree block that fits is written over a whole block, and read back from it. -/
theorem encode_eq_ok (hkey : 1 ≤ l.keyLength) {n : Node} (hn : n.Storable l) (hfits : n.fits l) :
    ∃ image, n.encode l l.blockSize = .ok image ∧ image.length = l.blockSize ∧
      ∀ pos, decode l pos image = .ok n := by
  cases n with
  | leaf es =>
    obtain ⟨image, himage, hlen, hhead, hdecode⟩ := Leaf.encode_eq_ok hkey (.of_forall hn none) hfits
    have hkind : BlockKind.ofTag? BlockKind.leaf.tag = some .leaf := rfl
    exact ⟨image, himage, hlen, fun pos => by simp [decode, hhead, hkind, hdecode, Except.map]⟩
  | branch b =>
    obtain ⟨image, himage, hlen, hhead, hdecode⟩ := Branch.encode_eq_ok hkey hn.1 hn.2 hfits
    have hkind : BlockKind.ofTag? BlockKind.branch.tag = some .branch := rfl
    exact ⟨image, himage, hlen, fun pos => by simp [decode, hhead, hkind, hdecode, Except.map]⟩

/-- A tree block that does not fit is not written. -/
theorem fits_of_encode (hkey : 1 ≤ l.keyLength) {n : Node} {image : Bytes} (hn : n.Storable l)
    (h : n.encode l l.blockSize = .ok image) : n.fits l := by
  cases n with
  | leaf es => exact Leaf.fits_of_encode hkey (.of_forall hn none) h
  | branch b => exact Branch.fits_of_encode hkey hn.1 hn.2 h

end Node

namespace Slots

theorem encodeRecords_eq_ok {records : List Nat} (h : ∀ r ∈ records, r ≤ l.maxRecord) :
    ∃ b, encodeRecords l records = .ok b ∧ b.length = l.positionWidth * records.length ∧
      ∀ room fuel, (b ++ BlockImage.ending l room).length ≤ fuel →
        decodeRecords l fuel (b ++ BlockImage.ending l room) = .ok records := by
  induction records with
  | nil =>
    refine ⟨[], rfl, by simp, fun room fuel hfuel => ?_⟩
    cases room <;> cases fuel <;> simp [BlockImage.ending, decodeRecords]
  | cons r records ih =>
    have hr := h r List.mem_cons_self
    obtain ⟨c, hc, hclen, hrest⟩ := ih fun x hx => h x (List.mem_cons_of_mem _ hx)
    have hfield : (Position.field l.format r).length = l.positionWidth :=
      Position.length_field _ _
    obtain ⟨next, hnext, hmark⟩ := Position.head?_field hr
    replace hmark : next ≠ l.endMark := hmark
    have hencode := Position.encode_eq_ok hr
    have hdecode := Position.decode_field hr []
    rw [List.append_nil] at hdecode
    refine ⟨Position.field l.format r ++ c, ?_, ?_, fun room fuel hfuel => ?_⟩
    · simp [encodeRecords, hencode, hc, bind, Except.bind, pure, Except.pure]
    · rw [List.length_append, hfield, hclen, List.length_cons, Nat.mul_succ, Nat.add_comm]
    · obtain ⟨tail, htail⟩ : ∃ tail, Position.field l.format r = next :: tail := by
        cases hf : Position.field l.format r with
        | nil => simp [hf] at hnext
        | cons b tail => exact ⟨tail, by simpa [hf] using hnext⟩
      cases fuel with
      | zero => simp [htail] at hfuel
      | succ fuel =>
        have hread := hrest room fuel (by simp [htail] at hfuel ⊢; omega)
        rw [List.append_assoc]
        have htake := @List.take_left' _ _ (c ++ BlockImage.ending l room) _ hfield
        have hdrop := @List.drop_left' _ _ (c ++ BlockImage.ending l room) _ hfield
        rw [htail, List.cons_append] at htake hdrop ⊢
        rw [decodeRecords, if_neg hmark]
        simp only [htake, hdrop, hread]
        rw [← htail, if_neg (by omega), hdecode]
        rfl

/-- A slot block that fits is written over a whole block, and read back from it. -/
theorem encode_eq_ok {s : Slots} (hnext : s.next.offset ≤ l.maxRecord)
    (hrecords : ∀ r ∈ s.records, r ≤ l.maxRecord) (hfits : l.fits (s.encodedSize l)) :
    ∃ image, encode l l.blockSize s = .ok image ∧ image.length = l.blockSize ∧
      image.head? = some BlockKind.slots.tag ∧ decode l image = .ok s := by
  obtain ⟨c, hc, hlen, hread⟩ := encodeRecords_eq_ok hrecords
  have hlink := Position.encode_eq_ok hnext
  have hwidth : (Position.field l.format s.next.offset).length = l.positionWidth :=
    Position.length_field _ _
  have hbody : l.fits
      (BlockKind.slots.tag :: (Position.field l.format s.next.offset ++ c)).length := by
    rwa [encodedSize, Nat.mul_add, Nat.mul_one, ← hlen, ← hwidth, ← List.length_append,
      Nat.add_comm] at hfits
  obtain ⟨hclose, hsize, hroom⟩ := BlockImage.close_eq_ok hbody
  refine ⟨_, ?_, hsize, rfl, ?_⟩
  · simp [encode, hlink, hc, hclose, bind, Except.bind]
  · have hrest := hread (l.blockSize -
      (BlockKind.slots.tag :: (Position.field l.format s.next.offset ++ c)).length) l.blockSize
    generalize hr : c ++ BlockImage.ending l (l.blockSize -
      (BlockKind.slots.tag :: (Position.field l.format s.next.offset ++ c)).length) = rest at *
    have himage : BlockKind.slots.tag :: (Position.field l.format s.next.offset ++ c) ++
        BlockImage.ending l (l.blockSize -
          (BlockKind.slots.tag :: (Position.field l.format s.next.offset ++ c)).length) =
        BlockKind.slots.tag :: (Position.field l.format s.next.offset ++ rest) := by
      simp [← hr]
    rw [himage] at hsize ⊢
    have hlong : Bytes.shorterThan
        (BlockKind.slots.tag :: (Position.field l.format s.next.offset ++ rest))
        (l.positionWidth + 1) = false := by
      rw [Bytes.shorterThan_eq_decide]
      simp [hwidth]
    have hrecordsRead := hrest (by simp at hsize; omega)
    simp [decode, BlockImage.expect, BlockImage.used_of_length hsize, hlong, Nat.add_comm 1,
      List.drop_left' hwidth, Position.decode_field hnext, hrecordsRead, bind, Except.bind, pure,
      Except.pure]

theorem encodeRecords_eq_error {records : List Nat} {record : Nat}
    (hrecords : ∀ r ∈ records, r ≤ l.maxRecord) (hrecord : l.maxRecord < record) :
    encodeRecords l (records ++ [record]) =
      .error (.invalidKey (.positionTooLarge record l.format)) := by
  induction records with
  | nil =>
    have hencode : Position.encode l.format record = .error _ := if_pos hrecord
    simp [encodeRecords, hencode, bind, Except.bind]
  | cons r records ih =>
    have hr := Position.encode_eq_ok (hrecords r List.mem_cons_self)
    have hrest := ih fun x hx => hrecords x (List.mem_cons_of_mem _ hx)
    simp [encodeRecords, hr, hrest, bind, Except.bind]

/-- A position that cannot be written is refused. -/
theorem encode_eq_error {next : BlockPos} {records : List Nat} {record : Nat} (size : Nat)
    (hnext : next.offset ≤ l.maxRecord) (hrecords : ∀ r ∈ records, r ≤ l.maxRecord)
    (hrecord : l.maxRecord < record) :
    encode l size ⟨next, records ++ [record]⟩ =
      .error (.invalidKey (.positionTooLarge record l.format)) := by
  have hlink := Position.encode_eq_ok hnext
  have hbody := encodeRecords_eq_error hrecords hrecord
  simp [encode, hlink, hbody, bind, Except.bind]

theorem le_of_encodeRecords {records : List Nat} {b : Bytes} (h : encodeRecords l records = .ok b) :
    ∀ r ∈ records, r ≤ l.maxRecord := by
  induction records generalizing b with
  | nil => exact nofun
  | cons r records ih =>
    rw [encodeRecords] at h
    cases hr : Position.encode l.format r with
    | error e => simp [hr, bind, Except.bind] at h
    | ok front =>
      cases hrest : encodeRecords l records with
      | error e => simp [hr, hrest, bind, Except.bind] at h
      | ok back =>
        exact List.forall_mem_cons.mpr ⟨(Position.encode_eq_ok_iff.mp hr).1, ih hrest⟩

/-- A slot block that does not fit, or whose positions are too large, is not written. -/
theorem of_encode {s : Slots} {image : Bytes} (hnext : s.next.offset ≤ l.maxRecord)
    (h : s.encode l l.blockSize = .ok image) :
    (∀ r ∈ s.records, r ≤ l.maxRecord) ∧ l.fits (s.encodedSize l) := by
  have hlink := Position.encode_eq_ok hnext
  have hwidth : (Position.field l.format s.next.offset).length = l.positionWidth :=
    Position.length_field _ _
  cases hbody : encodeRecords l s.records with
  | error e => simp [encode, hlink, hbody, bind, Except.bind] at h
  | ok c =>
    have hrecords := le_of_encodeRecords hbody
    obtain ⟨c', hc', hlen, -⟩ := encodeRecords_eq_ok hrecords
    obtain rfl : c' = c := Except.ok.inj (hc'.symm.trans hbody)
    simp only [encode, hlink, hbody, bind, Except.bind] at h
    have hfits := BlockImage.fits_of_close h
    rw [List.length_cons, List.length_append, hwidth, hlen] at hfits
    refine ⟨hrecords, ?_⟩
    rwa [encodedSize, Nat.mul_add, Nat.mul_one, Nat.add_comm]

end Slots

namespace Deleted

/-- A block keeps its size when it is stamped as deleted. -/
theorem length_stamp (l : Layout) (next : BlockPos) (old : Bytes) :
    (stamp l next old).1.length = old.length := by
  unfold stamp
  split
  · rfl
  · next hlong =>
    split
    · simp only [List.length_cons, List.length_replicate]
      omega
    · next link hlink =>
      dsimp only
      split
      · rfl
      · have hwidth : link.length = l.positionWidth := by
          rw [(Position.encode_eq_ok_iff.mp hlink).2]
          exact Position.length_field _ _
        simp only [List.length_cons, List.length_append, BlockImage.length_ending]
        omega

/-- A block is stamped as deleted whatever it held, and the link is read back. -/
theorem stamp_eq_ok {next : BlockPos} (hnext : next.offset ≤ l.maxRecord) {old : Bytes}
    (hold : 1 + l.positionWidth + l.endSize ≤ old.length) :
    ∃ image, stamp l next old = (image, .ok ()) ∧ image.length = old.length ∧
      ∀ pos, decode l pos image = .ok next := by
  have hlink := Position.encode_eq_ok hnext
  have hwidth : (Position.field l.format next.offset).length = l.positionWidth :=
    Position.length_field _ _
  refine ⟨BlockKind.deleted.tag :: (Position.field l.format next.offset ++
    BlockImage.ending l (old.length - (1 + l.positionWidth))), ?_, ?_, fun pos => ?_⟩
  · unfold stamp
    rw [hlink, if_neg (by omega)]
    simp only
    rw [if_neg (by omega)]
  · simp [hwidth, BlockImage.length_ending]; omega
  · unfold decode
    rw [Bytes.shorterThan_eq_decide]
    have hlong : ¬(BlockKind.deleted.tag :: (Position.field l.format next.offset ++
        BlockImage.ending l (old.length - (1 + l.positionWidth)))).length <
          1 + l.positionWidth := by
      simp [hwidth]; omega
    rw [if_neg (by simp), decide_eq_false hlong, if_neg (by simp)]
    simp [Position.decode_field hnext]

end Deleted

namespace Pointers

theorem patch_append (a b c field : Bytes) (h : b.length = field.length) :
    Bytes.patch (a ++ (b ++ c)) a.length field = a ++ (field ++ c) := by
  simp [Bytes.patch, ← h]

/-- Chain pointers are written in place, whether all of them can be written or not. -/
theorem length_write (format : Format) (p : Pointers) {image : Bytes}
    (hlen : 1 + 4 * format.positionWidth ≤ image.length) :
    (write format p image).1.length = image.length := by
  have hoffsets : ∀ f ∈ (offsets format).zip p.fields,
      f.1 + format.positionWidth ≤ 1 + 4 * format.positionWidth := by
    intro f hf
    obtain ⟨i, hi, hif⟩ := List.mem_map.mp (List.of_mem_zip hf).1
    have := Nat.mul_le_mul_right format.positionWidth (List.mem_range.mp hi)
    rw [Nat.succ_mul] at this
    omega
  unfold write
  generalize (offsets format).zip p.fields = fields at hoffsets
  induction fields generalizing image with
  | nil => rfl
  | cons f rest ih =>
    obtain ⟨offset, pos⟩ := f
    have hf := hoffsets _ List.mem_cons_self
    simp only [writeFields]
    split
    · rfl
    · next field hfield =>
      have hwidth : field.length = format.positionWidth := by
        rw [(Position.encode_eq_ok_iff.mp hfield).2]
        exact Position.length_field _ _
      have hpatch : (Bytes.patch image offset field).length = image.length := by
        simp only [Bytes.patch, List.length_append, List.length_take, List.length_drop, hwidth]
        omega
      rw [ih (by omega) fun f' hf' => hoffsets f' (List.mem_cons_of_mem _ hf'), hpatch]

/-- The chain pointers of a header block are changed in place and read back; the rest of the block
stays. -/
theorem write_eq_ok {format : Format} {p : Pointers} {image : Bytes}
    (hp : ∀ pos ∈ p.fields, pos.offset ≤ format.maxPosition)
    (hlen : 1 + 4 * format.positionWidth ≤ image.length) :
    ∃ new, write format p image = (new, .ok ()) ∧ read format new = p ∧
      new.take 1 = image.take 1 ∧
      new.drop (1 + 4 * format.positionWidth) = image.drop (1 + 4 * format.positionWidth) ∧
      new.length = image.length := by
  obtain ⟨tag, image, rfl⟩ : ∃ tag rest, image = tag :: rest := by
    cases image with
    | nil => simp at hlen
    | cons tag rest => exact ⟨tag, rest, rfl⟩
  simp only [fields, List.mem_cons, List.not_mem_nil, or_false, forall_eq_or_imp,
    forall_eq] at hp
  have hwidth : ∀ n, (Position.field format n).length = format.positionWidth :=
    Position.length_field format
  generalize hw : format.positionWidth = w at *
  have cut : ∀ b : Bytes, w ≤ b.length → ∃ x y, b = x ++ y ∧ x.length = w := fun b hb =>
    ⟨b.take w, b.drop w, (List.take_append_drop w b).symm, by simp; omega⟩
  obtain ⟨b0, image, rfl, h0⟩ := cut image (by simp at hlen; omega)
  obtain ⟨b1, image, rfl, h1⟩ := cut image (by simp at hlen; omega)
  obtain ⟨b2, image, rfl, h2⟩ := cut image (by simp at hlen; omega)
  obtain ⟨b3, image, rfl, h3⟩ := cut image (by simp at hlen; omega)
  generalize hf0 : Position.field format p.freeHead.offset = f0
  generalize hf1 : Position.field format p.slotHead.offset = f1
  generalize hf2 : Position.field format p.root.offset = f2
  generalize hf3 : Position.field format p.highWater.offset = f3
  have g0 : f0.length = w := hf0 ▸ hwidth _
  have g1 : f1.length = w := hf1 ▸ hwidth _
  have g2 : f2.length = w := hf2 ▸ hwidth _
  have g3 : f3.length = w := hf3 ▸ hwidth _
  have e0 : Bytes.patch (tag :: (b0 ++ (b1 ++ (b2 ++ (b3 ++ image))))) 1 f0 =
      tag :: (f0 ++ (b1 ++ (b2 ++ (b3 ++ image)))) :=
    patch_append [tag] b0 _ f0 (by omega)
  have e1 : Bytes.patch (tag :: (f0 ++ (b1 ++ (b2 ++ (b3 ++ image))))) (1 + w) f1 =
      tag :: (f0 ++ (f1 ++ (b2 ++ (b3 ++ image)))) := by
    have := patch_append (tag :: f0) b1 (b2 ++ (b3 ++ image)) f1 (by omega)
    simpa [g0, Nat.add_comm] using this
  have e2 : Bytes.patch (tag :: (f0 ++ (f1 ++ (b2 ++ (b3 ++ image))))) (1 + 2 * w) f2 =
      tag :: (f0 ++ (f1 ++ (f2 ++ (b3 ++ image)))) := by
    have := patch_append (tag :: (f0 ++ f1)) b2 (b3 ++ image) f2 (by omega)
    simpa [g0, g1, Nat.add_comm, Nat.two_mul] using this
  have e3 : Bytes.patch (tag :: (f0 ++ (f1 ++ (f2 ++ (b3 ++ image))))) (1 + 3 * w) f3 =
      tag :: (f0 ++ (f1 ++ (f2 ++ (f3 ++ image)))) := by
    have := patch_append (tag :: (f0 ++ (f1 ++ f2))) b3 image f3 (by omega)
    simpa [g0, g1, g2, Nat.add_comm, show 3 * w = w + (w + w) by omega] using this
  refine ⟨tag :: (f0 ++ (f1 ++ (f2 ++ (f3 ++ image)))), ?_, ?_, rfl, ?_, ?_⟩
  · have hoffsets : offsets format = [1, 1 + w, 1 + 2 * w, 1 + 3 * w] := by
      simp [offsets, List.range_succ, hw]
    simp only [write, hoffsets, fields, List.zip_cons_cons, List.zip_nil_left, writeFields,
      Position.encode_eq_ok hp.1, Position.encode_eq_ok hp.2.1, Position.encode_eq_ok hp.2.2.1,
      Position.encode_eq_ok hp.2.2.2, hf0, hf1, hf2, hf3, e0, e1, e2, e3]
  · have d1 : (tag :: (f0 ++ (f1 ++ (f2 ++ (f3 ++ image))))).drop (1 + 1 * w) =
        f1 ++ (f2 ++ (f3 ++ image)) := by
      rw [Nat.add_comm, List.drop_succ_cons, Nat.one_mul, ← g0, List.drop_left]
    have d2 : (tag :: (f0 ++ (f1 ++ (f2 ++ (f3 ++ image))))).drop (1 + 2 * w) =
        f2 ++ (f3 ++ image) := by
      rw [show 1 + 2 * w = 1 + 1 * w + w by omega, ← List.drop_drop, d1, ← g1, List.drop_left]
    have d3 : (tag :: (f0 ++ (f1 ++ (f2 ++ (f3 ++ image))))).drop (1 + 3 * w) =
        f3 ++ image := by
      rw [show 1 + 3 * w = 1 + 2 * w + w by omega, ← List.drop_drop, d2, ← g2, List.drop_left]
    unfold read
    simp only [hw, d1, d2, d3, Nat.zero_mul, Nat.add_zero, List.drop_succ_cons, List.drop_zero]
    rw [← hf0, ← hf1, ← hf2, ← hf3, Position.decode_field hp.1, Position.decode_field hp.2.1,
      Position.decode_field hp.2.2.1, Position.decode_field hp.2.2.2]
  · have hsize : ∀ x0 x1 x2 x3 : Bytes, x0.length = w → x1.length = w → x2.length = w →
        x3.length = w →
        (tag :: (x0 ++ (x1 ++ (x2 ++ (x3 ++ image))))).drop (1 + 4 * w) = image := by
      intro x0 x1 x2 x3 h0 h1 h2 h3
      have := @List.drop_left _ (tag :: (x0 ++ (x1 ++ (x2 ++ x3)))) image
      simpa [h0, h1, h2, h3, show 1 + 4 * w = w + (w + (w + w)) + 1 by omega] using this
    rw [hsize f0 f1 f2 f3 g0 g1 g2 g3, hsize b0 b1 b2 b3 h0 h1 h2 h3]
  · simp [g0, g1, g2, g3, h0, h1, h2, h3]

end Pointers

/-! ## Tags -/

namespace BlockKind

theorem ofTag?_eq_some {b : UInt8} {kind : BlockKind} (h : ofTag? b = some kind) :
    b = kind.tag := by
  have := List.find?_some h
  simp only [beq_iff_eq] at this
  exact this.symm

theorem ofTag?_tag (kind : BlockKind) : ofTag? kind.tag = some kind := by
  cases kind <;> decide

theorem tag_injective {k k' : BlockKind} (h : k.tag = k'.tag) : k = k' :=
  Option.some.inj (by rw [← ofTag?_tag k, ← ofTag?_tag k', h])

end BlockKind

def Node.kind : Node → BlockKind
  | leaf _ => .leaf
  | branch _ => .branch

def Node.links : Node → List BlockPos
  | leaf _ => []
  | branch b => b.children

section Tags

variable {pos next : BlockPos} {image : Bytes} {n : Node}

theorem Node.head?_of_decode (h : Node.decode l pos image = .ok n) :
    image.head? = some n.kind.tag := by
  unfold Node.decode at h
  cases hhead : image.head? with
  | none => simp [hhead] at h
  | some b =>
    rw [hhead] at h
    cases hkind : BlockKind.ofTag? b with
    | none => simp [hkind] at h
    | some kind =>
      have hb := BlockKind.ofTag?_eq_some hkind
      cases kind with
      | leaf =>
        simp only [Option.bind_some, hkind] at h
        cases hd : Leaf.decode l image with
        | error e => simp [hd, Except.map] at h
        | ok es =>
          rw [hd] at h
          cases h
          rw [hb]
          rfl
      | branch =>
        simp only [Option.bind_some, hkind] at h
        cases hd : Branch.decode l image with
        | error e => simp [hd, Except.map] at h
        | ok es =>
          rw [hd] at h
          cases h
          rw [hb]
          rfl
      | header | slots | deleted => simp [hkind] at h

theorem Deleted.head?_of_decode (h : Deleted.decode l pos image = .ok next) :
    image.head? = some BlockKind.deleted.tag := by
  unfold Deleted.decode at h
  split at h
  · cases h
  · next hhead => exact Decidable.not_not.mp hhead

end Tags

end PagedIndex
