import PagedIndex.Header.Basic
import PagedIndex.Proofs.Codec.Blocks
import PagedIndex.Proofs.Codec.Text
import PagedIndex.Proofs.Effect
import PagedIndex.Proofs.Tree.Ledger

/-!
# The header of a new file

The first block of a new file is read back with its format and null pointers. The block size that is
read is no larger than the one asked for; it is another one only if that has more digits than its
field. There is no such block if the fields do not go into it.

## Main definitions

* `Header.Written` — the bytes that hold what is written of a header.
* `Header.Writable` — headers that there are fields for.
* `Header.Fronts` — what the first bytes of a new file tell.

## Main statements

* `Header.encode_cases` — what comes of writing a header.
* `Header.fronts_of_encode` — the first block of a new file.
* `Header.Fronts.parse` — what is read back from it.
-/

namespace PagedIndex

namespace Decimal

/-- A field that is too short makes a number smaller. -/
theorem value_field_le (width n : Nat) : value (field width n) ≤ n := by
  cases width with
  | zero => exact Nat.zero_le n
  | succ width => exact value_field_eq_mod (Nat.succ_pos width) n ▸ Nat.mod_le _ _

/-- There is nothing behind a field of its width. -/
theorem drop_field {width n i : Nat} (h : width ≤ i) : (field width n).drop i = [] :=
  List.drop_eq_nil_of_le (Nat.le_trans (Nat.le_of_eq (length_field width n)) h)

theorem value_dropWhile_blank (b : Bytes) : value (b.dropWhile (· == blank)) = value b := by
  induction b with
  | nil => rfl
  | cons d b ih =>
    by_cases hd : d = blank
    · subst hd
      simpa [value, isDigit, blank] using ih
    · simp [hd]

theorem value_eq_of_parse? {b : Bytes} {n : Nat} (h : parse? b = some n) : value b = n := by
  unfold parse? at h
  simp only [value_dropWhile_blank] at h
  split at h
  · cases h
  · split at h
    · exact Option.some.inj h
    · cases h

end Decimal

namespace Position

theorem decode_take {format : Format} {n : Nat} (h : format.positionWidth ≤ n) (b : Bytes) :
    decode format (b.take n) = decode format b := by
  unfold decode
  rw [List.take_take, Nat.min_eq_left h]

end Position

namespace Pointers

/-- The pointers stand in the first bytes of a header block. -/
theorem read_take {format : Format} {n : Nat} (h : 1 + 4 * format.positionWidth ≤ n) (image : Bytes) :
    read format (image.take n) = read format image := by
  have hfield : ∀ i, i < 4 → Position.decode format ((image.take n).drop (1 + i * format.positionWidth))
      = Position.decode format (image.drop (1 + i * format.positionWidth)) := by
    intro i hi
    have := Nat.mul_le_mul_right format.positionWidth hi
    rw [Nat.succ_mul] at this
    rw [List.drop_take]
    exact Position.decode_take (by omega) _
  unfold read
  simp only [hfield 0 (by decide), hfield 1 (by decide), hfield 2 (by decide), hfield 3 (by decide)]

end Pointers

namespace Header

/-- What the first bytes of a new file tell of its header. -/
structure Fronts (h : Header) (data : Bytes) : Prop where
  pointers : Pointers.read h.format data = {}
  blockSize : (data.drop 41).take 5 = Decimal.field 5 h.blockSize
  version : (data.drop 98).take 2 = Decimal.field 2 h.version
  duplicates : (data.drop 56).take 1 = [if h.duplicates then 0x44 else blank]

theorem length_fixedPart (h : Header) : h.fixedPart.length = nameStart := by
  unfold fixedPart
  cases h.fixedRecordLength <;>
    simp [Decimal.length_field, keyLengthField, nameStart]

theorem drop_fixedPart_blockSize (h : Header) :
    (h.fixedPart.drop 41).take 5 = Decimal.field 5 h.blockSize := by
  unfold fixedPart
  simp [List.drop_append, Decimal.length_field]

theorem drop_fixedPart_version (h : Header) :
    (h.fixedPart.drop 98).take 2 = Decimal.field 2 h.version := by
  unfold fixedPart
  cases h.fixedRecordLength <;>
    simp [List.drop_append, Decimal.length_field, keyLengthField, Decimal.drop_field]

theorem drop_fixedPart_duplicates (h : Header) :
    (h.fixedPart.drop 56).take 1 = [if h.duplicates then 0x44 else blank] := by
  unfold fixedPart
  simp [List.drop_append, Decimal.length_field, keyLengthField, Decimal.drop_field]

/-- The pointers stand in front of all that is fixed. -/
theorem pointers_le (format : Format) : 1 + 4 * format.positionWidth ≤ 41 := by
  cases format <;> decide

/-- The bytes that hold what is written of a header, the pointers apart. -/
structure Written (h : Header) (data : Bytes) : Prop where
  tag : byteAt data 0 = BlockKind.header.tag
  fixed : (data.take nameStart).drop 41 = h.fixedPart.drop 41
  name : ∃ rest, data.drop nameStart = h.nameField ++ rest

/-- A field stands where it was written. -/
theorem Written.slice {h : Header} {data : Bytes} (hw : h.Written data) {i n : Nat} (hi : 41 ≤ i)
    (hn : i + n ≤ nameStart) : (data.drop i).take n = (h.fixedPart.drop i).take n := by
  obtain ⟨k, rfl⟩ := Nat.exists_eq_add_of_le hi
  rw [← List.drop_drop (l := h.fixedPart), ← hw.fixed, List.drop_drop, List.drop_take, List.take_take,
    Nat.min_eq_left (by omega)]

theorem byteAt_zero_take {n : Nat} (hn : 0 < n) (b : Bytes) : byteAt (b.take n) 0 = byteAt b 0 := by
  cases b with
  | nil => rw [List.take_nil]
  | cons d rest =>
    obtain ⟨n, rfl⟩ := Nat.exists_eq_succ_of_ne_zero (Nat.ne_of_gt hn)
    rfl

/-- What a header takes at least of its block: as much as it has with the shortest text name. -/
def frontSize (h : Header) : Nat :=
  match h.format with
  | .modern => nameStart + 1
  | .legacy => nameEnd

/-- A block of the size there can be, with the room for the fields. -/
structure FitsBlock (h : Header) : Prop where
  front : h.frontSize ≤ h.blockSize
  length : h.blockSize ≤ Bytes.maxLength

theorem frontSize_le_length (h : Header) : h.frontSize ≤ (h.fixedPart ++ h.nameField).length := by
  rw [List.length_append, length_fixedPart]
  unfold frontSize nameField
  cases h.format with
  | modern =>
    simp only [List.length_append, List.length_singleton]
    omega
  | legacy =>
    simp only [Bytes.resize, List.length_append, List.length_take, List.length_replicate, nameStart,
      nameEnd]
    omega

/-- A name that there is room for goes into a block that is long enough for the shortest one. -/
theorem length_le_of_frontSize_le {h : Header} (hname : (Bytes.ofText h.textName).length ≤ h.nameRoom)
    (hfront : h.frontSize ≤ h.blockSize) : (h.fixedPart ++ h.nameField).length ≤ h.blockSize := by
  rw [List.length_append, length_fixedPart]
  unfold nameRoom at hname
  unfold frontSize at hfront
  unfold nameField
  cases hf : h.format with
  | modern =>
    simp only [hf, List.length_append, List.length_singleton] at *
    omega
  | legacy =>
    simp only [hf, Bytes.resize, List.length_append, List.length_take, List.length_replicate,
      nameStart, nameEnd] at *
    omega

/-- A text holds no byte that ends a record. -/
theorem ne_endOfRecord_of_mem {s : String} {b : UInt8} (hb : b ∈ Bytes.ofText s) :
    b ≠ endOfRecord := by
  rintro rfl
  exact absurd (Bytes.toNat_lt_of_mem_ofText hb) (by decide)

/-- A header that there are fields for. -/
structure Writable (h : Header) : Prop where
  keyLength : 1 ≤ h.keyLength ∧ h.keyLength ≤ maxKeyLength
  textName : (Bytes.ofText h.textName).length ≤ h.nameRoom

/-- What is written of a header that there are fields for. -/
theorem Writable.encode_eq {h : Header} (hw : h.Writable) : h.encode =
    let body := h.fixedPart ++ h.nameField
    if h.blockSize < body.length || h.blockSize > Bytes.maxLength then .error .outOfRange
    else
      let new := Pointers.write h.format {} (body ++ List.replicate (h.blockSize - body.length) filler)
      new.2.map fun _ => new.1 := by
  have hkey : ¬((h.keyLength = 0 || h.keyLength > maxKeyLength) = true) := by
    have := hw.keyLength
    simp
    omega
  have hname : ¬(((Bytes.ofText h.textName).length > h.nameRoom ||
      (Bytes.ofText h.textName).contains endOfRecord) = true) := by
    simp only [Bool.or_eq_true, decide_eq_true_eq, List.contains_iff_mem, not_or]
    exact ⟨Nat.not_lt_of_le hw.textName, fun hb => ne_endOfRecord_of_mem hb rfl⟩
  unfold encode
  rw [if_neg hkey]
  dsimp only
  rw [if_neg hname]
  split
  · rfl
  · show (Except.bind _ _ : Except Error Bytes) = _
    cases (Pointers.write h.format {} _).2 <;> rfl

/-- The first block of a file that is made. -/
structure Front (h : Header) (image : Bytes) : Prop where
  length : image.length = h.blockSize
  long : nameStart ≤ image.length
  pointers : Pointers.read h.format image = {}
  written : h.Written image

/-- It is made of a header that there are fields for, if the block has the room for them. -/
theorem Writable.encode_eq_ok {h : Header} (hw : h.Writable) (hfits : h.FitsBlock) :
    ∃ image, h.encode = .ok image ∧ h.Front image := by
  have hroom := length_le_of_frontSize_le hw.textName hfits.front
  have hfixed := h.length_fixedPart
  have hpointers := pointers_le h.format
  have hencode := hw.encode_eq
  dsimp only at hencode
  rw [if_neg (by simpa using ⟨by simpa using hroom, hfits.length⟩)] at hencode
  generalize hrest :
    List.replicate (h.blockSize - (h.fixedPart ++ h.nameField).length) filler = rest at hencode
  have hlength : (h.fixedPart ++ h.nameField ++ rest).length = h.blockSize := by
    rw [← hrest, List.length_append, List.length_replicate]
    omega
  have hlong : nameStart ≤ h.blockSize := by
    rw [List.length_append] at hroom
    omega
  have hnull : ∀ pos ∈ Pointers.fields {}, pos.offset ≤ h.format.maxPosition := by
    simp [Pointers.fields, BlockPos.null]
  obtain ⟨image, hwrite, hread, hfirst, hdrop, hnew⟩ := @Pointers.write_eq_ok h.format {} _ hnull
    (by rw [hlength]; unfold nameStart at hlong; omega)
  rw [hwrite] at hencode
  have hkept : image.drop 41 = (h.fixedPart ++ h.nameField ++ rest).drop 41 := by
    obtain ⟨k, hk⟩ := Nat.exists_eq_add_of_le hpointers
    rw [hk, ← List.drop_drop, hdrop, List.drop_drop]
  refine ⟨image, hencode, hnew.trans hlength, by rw [hnew, hlength]; exact hlong, hread, ?_, ?_,
    rest, ?_⟩
  · rw [← byteAt_zero_take Nat.one_pos, hfirst, byteAt_zero_take Nat.one_pos]
    rfl
  · rw [List.drop_take, hkept, List.append_assoc, List.drop_append_of_le_length (by
      rw [hfixed]; decide), List.take_left' (by rw [List.length_drop, hfixed])]
  · have hbehind : ∀ b : Bytes, b.drop nameStart = (b.drop 41).drop 60 := fun b => by
      rw [List.drop_drop]
      rfl
    rw [hbehind, hkept, ← hbehind, List.append_assoc, List.drop_left' hfixed]

/-- What comes of writing a header: it is refused if there are no fields for it, and given up in the
middle if they do not go into the block. -/
theorem encode_cases (h : Header) :
    (¬h.Writable ∧ ∃ e, h.encode = .error e ∧ e ≠ .outOfRange) ∨
    (h.Writable ∧ ¬h.FitsBlock ∧ h.encode = .error .outOfRange) ∨
    (h.Writable ∧ h.FitsBlock ∧ ∃ image, h.encode = .ok image ∧ h.Front image) := by
  by_cases hw : h.Writable
  · by_cases hfits : h.FitsBlock
    · exact .inr (.inr ⟨hw, hfits, hw.encode_eq_ok hfits⟩)
    · have hout : h.blockSize < (h.fixedPart ++ h.nameField).length ∨
        h.blockSize > Bytes.maxLength := by
        by_contra hnot
        have hfront := h.frontSize_le_length
        exact hfits ⟨by omega, by omega⟩
      refine .inr (.inl ⟨hw, hfits, ?_⟩)
      rw [hw.encode_eq]
      exact if_pos (by simpa using hout)
  · refine .inl ⟨hw, ?_⟩
    unfold encode
    by_cases hkey : (h.keyLength = 0 || h.keyLength > maxKeyLength) = true
    · rw [if_pos hkey]
      exact ⟨_, rfl, nofun⟩
    · rw [if_neg hkey]
      dsimp only
      rw [if_pos]
      · exact ⟨_, rfl, nofun⟩
      · simp only [Bool.or_eq_true, decide_eq_true_eq, not_or] at hkey ⊢
        exact .inl (Nat.lt_of_not_le fun hname => hw ⟨by omega, hname⟩)

theorem front_of_encode {h : Header} {image : Bytes} (he : h.encode = .ok image) : h.Front image := by
  rcases h.encode_cases with ⟨-, e, hfail, -⟩ | ⟨-, -, hfail⟩ | ⟨-, -, image', hok, hfront⟩
  · exact nomatch he.symm.trans hfail
  · exact nomatch he.symm.trans hfail
  · exact Except.ok.inj (he.symm.trans hok) ▸ hfront

/-- The first block of a new file is as long as asked for, and tells its header. -/
theorem fronts_of_encode {h : Header} {image : Bytes} (he : h.encode = .ok image) :
    image.length = h.blockSize ∧ nameStart ≤ image.length ∧ h.Fronts image := by
  obtain ⟨hlength, hlong, hpointers, hwritten⟩ := front_of_encode he
  refine ⟨hlength, hlong, hpointers, ?_, ?_, ?_⟩
  · exact (hwritten.slice (by decide) (by decide)).trans (drop_fixedPart_blockSize h)
  · exact (hwritten.slice (by decide) (by decide)).trans (drop_fixedPart_version h)
  · exact (hwritten.slice (by decide) (by decide)).trans (drop_fixedPart_duplicates h)

/-- What was told is told by any bytes that begin alike. -/
theorem Fronts.congr {h : Header} {data data' : Bytes} (hd : h.Fronts data)
    (heq : data'.take 100 = data.take 100) : h.Fronts data' := by
  have hslice : ∀ i n, i + n ≤ 100 → (data'.drop i).take n = (data.drop i).take n := by
    intro i n hi
    have hpart : ∀ b : Bytes, (b.drop i).take n = ((b.take 100).drop i).take n := by
      intro b
      rw [List.drop_take, List.take_take, Nat.min_eq_left (by omega)]
    rw [hpart data', hpart data, heq]
  have hpointers := pointers_le h.format
  refine ⟨?_, (hslice 41 5 (by decide)).trans hd.blockSize,
    (hslice 98 2 (by decide)).trans hd.version, (hslice 56 1 (by decide)).trans hd.duplicates⟩
  rw [← Pointers.read_take (n := 100) (by omega), heq, Pointers.read_take (by omega)]
  exact hd.pointers

theorem byteAt_eq_of_take {data : Bytes} {i : Nat} {a b : UInt8}
    (h : (data.drop i).take 2 = [a, b]) : byteAt data i = a ∧ byteAt data (i + 1) = b := by
  unfold byteAt
  rw [← List.drop_drop]
  match hd : data.drop i, h with
  | x :: y :: rest, h =>
    simp at h
    exact ⟨h.1, h.2⟩

section Checks

variable {α β : Type} {a : α}

/-- A check that was passed. -/
theorem of_check_eq_ok {e : Error} {c : Prop} [Decidable c] {f : PUnit → Except Error α}
    (h : (if c then throw e >>= f else f ⟨⟩) = .ok a) : ¬c ∧ f ⟨⟩ = .ok a := by
  by_cases hc : c
  · rw [if_pos hc] at h
    cases h
  · rw [if_neg hc] at h
    exact ⟨hc, h⟩

/-- A field that is there in some files only. -/
theorem of_choice_eq_ok {c : Prop} [Decidable c] {x : Except Error α} {b : β}
    {f : β → Except Error α} (h : (if c then x else pure b >>= f) = .ok a)
    (hx : x = .ok a → ∃ b, f b = .ok a) : ∃ b, f b = .ok a := by
  by_cases hc : c
  · rw [if_pos hc] at h
    exact hx h
  · rw [if_neg hc] at h
    exact ⟨b, h⟩

end Checks

/-- No version above the last one knows a record kind. -/
theorem le_of_knownKinds {version : Int} {kind : UInt8} (h : kind ∈ knownKinds version) :
    version ≤ 10 := by
  unfold knownKinds at h
  split at h
  · cases h
  · omega

/-- What is checked of a header that is read, and where it was read from. -/
structure Checked (h : Header) (data : Bytes) : Prop where
  usable : usable h.layout = true
  keyLength : 1 ≤ h.keyLength ∧ h.keyLength ≤ maxKeyLength
  version : h.version ≤ 10
  readBlockSize : Decimal.parse? ((data.drop 41).take 5) = some h.blockSize
  readVersion : h.version = (readVersion data).toNat
  readKeyLength : h.keyLength = (readKeyLength data).toNat
  readDuplicates : h.duplicates = (byteAt data 56 == 0x44)
  readName : ∃ name, readName h.layout data = .ok name

theorem checked_of_parse {h : Header} {data : Bytes} (hp : parse data = .ok h) : h.Checked data := by
  unfold Header.parse at hp
  obtain ⟨-, hp⟩ := of_check_eq_ok hp
  obtain ⟨hknown, hp⟩ := of_check_eq_ok hp
  obtain ⟨fixed, hp⟩ := of_choice_eq_ok hp fun hfixed => by
    split at hfixed
    · exact ⟨_, hfixed⟩
    · cases hfixed
  dsimp only at hp
  split at hp
  · next blockSize hblockSize =>
    rw [pure_bind] at hp
    obtain ⟨hkeyLength, hp⟩ := of_check_eq_ok hp
    obtain ⟨husable, hp⟩ := of_check_eq_ok hp
    obtain ⟨name, hname, hp⟩ := of_bind_eq_ok hp
    cases hp
    simp only [Bool.not_eq_true', Bool.not_eq_false, Bool.or_eq_true, decide_eq_true_eq,
      not_or, List.contains_iff_mem] at hkeyLength husable hknown
    have hversion := le_of_knownKinds hknown.2
    refine ⟨husable, ⟨?_, ?_⟩, ?_, hblockSize, rfl, rfl, rfl, name, hname⟩
    · show 1 ≤ (Header.readKeyLength data).toNat
      omega
    · show (Header.readKeyLength data).toNat ≤ maxKeyLength
      omega
    · show (Header.readVersion data).toNat ≤ 10
      omega
  · cases hp

theorem of_parse_eq_ok {h : Header} {data : Bytes} (hp : parse data = .ok h) :
    h.layout.Workable ∧ Decimal.parse? ((data.drop 41).take 5) = some h.blockSize ∧
      h.version = (readVersion data).toNat := by
  have hchecked := checked_of_parse hp
  have husable := hchecked.usable
  simp only [usable, Bool.and_eq_true, decide_eq_true_eq] at husable
  exact ⟨⟨⟨hchecked.keyLength.1, husable.2⟩, husable.1.2⟩, hchecked.readBlockSize,
    hchecked.readVersion⟩

/-- The first block is long enough for the fixed part of a header. -/
theorem minHeaderBytes_le_of_parse {h : Header} {data : Bytes} (hp : parse data = .ok h) :
    minHeaderBytes ≤ h.blockSize := by
  have husable := (checked_of_parse hp).usable
  simp only [usable, Bool.and_eq_true, decide_eq_true_eq] at husable
  exact husable.1.1

/-- A header is read from its tag and from what stands in the first block behind the pointers. -/
theorem parse_congr {h : Header} {data data' : Bytes} (hp : parse data = .ok h)
    (hlong : minHeaderBytes ≤ data'.length) (htag : byteAt data' 0 = byteAt data 0)
    (hrest : (data'.take h.blockSize).drop 41 = (data.take h.blockSize).drop 41) :
    parse data' = .ok h := by
  have hmin := minHeaderBytes_le_of_parse hp
  have hmin' : minHeaderBytes = 512 := rfl
  obtain ⟨-, hsize, -⟩ := of_parse_eq_ok hp
  have hfield : ∀ i n, 41 ≤ i → i + n ≤ h.blockSize →
      (data'.drop i).take n = (data.drop i).take n := by
    intro i n hi hn
    obtain ⟨k, rfl⟩ := Nat.exists_eq_add_of_le hi
    have hpart : ∀ b : Bytes, (b.drop (41 + k)).take n =
        (((b.take h.blockSize).drop 41).drop k).take n := by
      intro b
      rw [List.drop_drop, List.drop_take, List.take_take, Nat.min_eq_left (by omega)]
    rw [hpart, hpart, hrest]
  have hbyte : ∀ i, 41 ≤ i → i < h.blockSize → byteAt data' i = byteAt data i := by
    intro i hi hlt
    have hone : ∀ b : Bytes, byteAt b i = ((b.drop i).take 1).headD 0 := by
      intro b
      unfold byteAt
      cases b.drop i <;> rfl
    rw [hone, hone, hfield i 1 hi (by omega)]
  have hversion : readVersion data' = readVersion data := by
    unfold readVersion
    rw [hbyte 98 (by omega) (by omega), hbyte 99 (by omega) (by omega)]
  have hkey : readKeyLength data' = readKeyLength data := by
    unfold readKeyLength
    rw [hbyte 58 (by omega) (by omega), hbyte 59 (by omega) (by omega)]
  have hname : ∀ keyLength format, readName ⟨keyLength, h.blockSize, format⟩ data' =
      readName ⟨keyLength, h.blockSize, format⟩ data := by
    intro keyLength format
    have hmodern : ∀ b : Bytes, (b.take h.blockSize).drop nameStart =
        ((b.take h.blockSize).drop 41).drop 60 := fun b => by rw [List.drop_drop]; rfl
    have hlegacy : ∀ b : Bytes, (b.take nameEnd).drop nameStart = (b.drop 101).take 64 :=
      fun b => List.drop_take
    unfold readName
    rw [hmodern data', hrest, ← hmodern, hlegacy data', hfield 101 64 (by omega) (by omega),
      ← hlegacy]
  unfold parse at hp ⊢
  rw [if_neg (by omega)]
  obtain ⟨-, hp⟩ := of_check_eq_ok hp
  rw [hversion, hkey, htag, hbyte 57 (by omega) (by omega), hbyte 100 (by omega) (by omega),
    hfield 64 5 (by omega) (by omega), hfield 41 5 (by omega) (by omega),
    hbyte 55 (by omega) (by omega), hbyte 56 (by omega) (by omega)]
  rw [hsize] at hp ⊢
  simp only [pure_bind, hname] at hp ⊢
  exact hp

theorem minHeaderBytes_le_length {h : Header} {data : Bytes} (hp : parse data = .ok h) :
    minHeaderBytes ≤ data.length := by
  unfold parse at hp
  obtain ⟨hlong, -⟩ := of_check_eq_ok hp
  omega

/-- So it is read from the first block alone. -/
theorem parse_of_take_eq {h : Header} {data data' : Bytes} (hp : parse data = .ok h)
    (heq : data'.take h.blockSize = data.take h.blockSize) : parse data' = .ok h := by
  have hmin := minHeaderBytes_le_of_parse hp
  have hlong := minHeaderBytes_le_length hp
  have hmin' : minHeaderBytes = 512 := rfl
  refine parse_congr hp ?_ ?_ (by rw [heq])
  · have := congrArg List.length heq
    rw [List.length_take, List.length_take] at this
    omega
  · rw [← byteAt_zero_take (n := h.blockSize) (by omega), heq, byteAt_zero_take (by omega)]

/-- Saving pointers leaves the header as it is. -/
theorem parse_write {h : Header} {x new : Bytes} {p : Pointers} (hp : parse x = .ok h)
    (hwrite : Pointers.write h.format p x = (new, .ok ()))
    (hfields : ∀ pos ∈ p.fields, pos.offset ≤ h.format.maxPosition) : parse new = .ok h := by
  have hlong := minHeaderBytes_le_length hp
  have hmin : minHeaderBytes = 512 := rfl
  have hpointers := pointers_le h.format
  obtain ⟨image, hwrite', -, htag, hdrop, hlen⟩ := @Pointers.write_eq_ok h.format p x hfields (by omega)
  rw [hwrite] at hwrite'
  cases hwrite'
  refine parse_congr hp (by omega) ?_ ?_
  · rw [← byteAt_zero_take Nat.one_pos, htag, byteAt_zero_take Nat.one_pos]
  · obtain ⟨k, hk⟩ := Nat.exists_eq_add_of_le hpointers
    rw [List.drop_take, List.drop_take, hk, ← List.drop_drop, hdrop, List.drop_drop]

theorem readVersion_of_take {format : Format} {data : Bytes}
    (h : (data.drop 98).take 2 = Decimal.field 2 format.newVersion) :
    (readVersion data).toNat = format.newVersion := by
  unfold readVersion
  cases format with
  | modern =>
    obtain ⟨htens, hones⟩ := byteAt_eq_of_take (a := 0x31) (b := 0x30) h
    rw [htens, hones]
    decide
  | legacy =>
    obtain ⟨htens, hones⟩ := byteAt_eq_of_take (a := blank) (b := 0x38) h
    rw [htens, hones]
    decide

/-- What is read back from the first block of a new file. -/
theorem Fronts.parse {h h' : Header} {data : Bytes} {format : Format} (hd : h.Fronts data)
    (hversion : h.version = format.newVersion) (hp : Header.parse data = .ok h') :
    h'.layout.Workable ∧ h'.format = h.format ∧ h'.blockSize ≤ h.blockSize := by
  obtain ⟨hworkable, hblockSize, hread⟩ := of_parse_eq_ok hp
  refine ⟨hworkable, ?_, ?_⟩
  · unfold Header.format
    rw [hread, readVersion_of_take (hversion ▸ hd.version), hversion]
  · rw [hd.blockSize] at hblockSize
    rw [← Decimal.value_eq_of_parse? hblockSize]
    exact Decimal.value_field_le 5 h.blockSize

/-- Whether keys may repeat is read back as it was written. -/
theorem Fronts.duplicates_eq {h h' : Header} {data : Bytes} (hd : h.Fronts data)
    (hp : Header.parse data = .ok h') : h'.duplicates = h.duplicates := by
  have hbyte : byteAt data 56 = if h.duplicates then 0x44 else blank := by
    have hfield := hd.duplicates
    unfold byteAt
    cases hrest : data.drop 56 with
    | nil =>
      rw [hrest] at hfield
      cases hfield
    | cons b rest =>
      rw [hrest] at hfield
      exact (List.cons.inj hfield).1
  rw [(checked_of_parse hp).readDuplicates, hbyte]
  cases h.duplicates <;> rfl

end Header

end PagedIndex
