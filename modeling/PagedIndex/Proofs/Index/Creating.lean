import PagedIndex.Proofs.Codec.Admitted
import PagedIndex.Proofs.Codec.Parsed
import PagedIndex.Proofs.Index.Ending
import PagedIndex.Proofs.Index.Filing

/-!
# Files as they are asked for

A file is made from a header that is asked for, and opened with the header that is read back from
its first block. Over a store that refuses nothing, what comes of it is known from what is asked
for: the file is opened if all that is asked for is acceptable, or the call ends with an error. Of a
block size with more than five digits only the last five are read back, so a file can get another
block size than the one asked for. A block that is too short for the fields in front of the text
name, or that is larger than any there can be, makes no error but abandons the call.

## Main definitions

* `OpenOptions.asked` — the header that is asked for.
* `OpenOptions.heading` — the header that a new file gets.
* `OpenOptions.Formable`, `OpenOptions.Acceptable` — what a file can be made of, and opened after
  it.
* `OpenOptions.BlockSizeUnfit` — what abandons the call.
* `OpenOptions.Reopens` — contents that can be opened with the same header again.

## Main statements

* `OpenOptions.firstBlock_cases` — what comes of the header that is asked for.
* `Index.openStore_created` — what comes of opening a new file.
* `Index.heading_of_create` — the header of a new file, now and whenever it is opened again.
-/

namespace PagedIndex

namespace OpenOptions

def askedName (options : OpenOptions) (storeName : Option String) : String :=
  options.textName.getD (defaultTextName storeName)

def asked (options : OpenOptions) (storeName : Option String) : Header :=
  { Header.new options.keyLength options.format with
    blockSize := options.blockSize
    duplicates := options.duplicates == .allow
    fixedRecordLength := options.fixedRecordLength
    textName := options.askedName storeName }

def heading (options : OpenOptions) (storeName : Option String) : Header where
  version := options.format.newVersion
  -- the field has five digits
  blockSize := options.blockSize % 10 ^ 5
  keyLength := options.keyLength
  duplicates := options.duplicates == .allow
  fixedRecordLength := options.fixedRecordLength
  textName :=
    match options.format with
    | .modern => options.askedName storeName
    | .legacy => Bytes.trimmed (options.askedName storeName)
  textRelative := false

/-- What a file can be made of, by a header that can be read back. -/
structure Formable (options : OpenOptions) (store : Store) : Prop where
  keyLength : 1 ≤ options.keyLength ∧ options.keyLength ≤ maxKeyLength
  blockSize : Header.usable ⟨options.keyLength, options.blockSize % 10 ^ 5, options.format⟩ = true
  textName : (Bytes.ofText (options.askedName store.name)).length ≤
    (options.heading store.name).nameRoom
  room : options.blockSize ≤ Bytes.maxLength

/-- What a file is made of that can also be opened then: a record length with more than five digits
is read back as another one. -/
structure Acceptable (options : OpenOptions) (store : Store) : Prop where
  formable : options.Formable store
  recordLength : ∀ n ∈ options.fixedRecordLength, n < 10 ^ 5

/-- A key length and a text name that are not refused, but a block that is too short for the fields
in front of the name, or larger than any there can be. -/
structure BlockSizeUnfit (options : OpenOptions) (storeName : Option String) : Prop where
  keyLength : 1 ≤ options.keyLength ∧ options.keyLength ≤ maxKeyLength
  textName : (Bytes.ofText (options.askedName storeName)).length ≤
    match options.format with
    | .modern => options.blockSize - (Header.nameStart + 1)
    | .legacy => Header.nameEnd - Header.nameStart
  blockSize : Bytes.maxLength < options.blockSize ∨ options.blockSize <
    match options.format with
    | .modern => Header.nameStart + 1
    | .legacy => Header.nameEnd

/-- Contents that are opened with a header in any mode but the one that makes a file anew, as long
as reading is not refused. -/
def Reopens (options : OpenOptions) (header : Header) (c : Contents) : Prop :=
  ∀ (mode : OpenMode) (store : Store) (cell : Nat) (u : Workspace), mode ≠ .create →
    store.Yields u.disk → u.disk.contents store.volume = c →
    Ends (Index.openStore store { options with mode := mode } cell) u fun r _ =>
      ∃ ix, r = .ok ix ∧ ix.header = header

variable {options : OpenOptions} {store : Store} {name : Option String}

theorem format_asked (options : OpenOptions) (name : Option String) :
    (options.asked name).format = options.format := by
  unfold Header.format
  show Format.ofVersion options.format.newVersion = _
  cases options.format <;> rfl

theorem version_asked_eq (options : OpenOptions) (name : Option String) :
    (options.asked name).version = options.format.newVersion := rfl

theorem version_asked (options : OpenOptions) (name : Option String) :
    7 ≤ (options.asked name).version ∧ (options.asked name).version ≤ 10 := by
  rw [version_asked_eq]
  cases options.format <;> decide

theorem newHeader_eq_bind (options : OpenOptions) (name : Option String) :
    options.newHeader name = (options.asked name).encode >>= fun image =>
      Header.parse image >>= fun _ => pure (options.asked name) := rfl

theorem format_heading (options : OpenOptions) (name : Option String) :
    (options.heading name).format = options.format := options.format_asked name

/-- Nothing but digits and blanks is lost of the header that is asked for. -/
theorem reread_asked (hsmall : ∀ n ∈ options.fixedRecordLength, n < 10 ^ 5) :
    (options.asked name).reread = options.heading name := by
  have hrecordLength : options.fixedRecordLength.map (· % 10 ^ 5) = options.fixedRecordLength := by
    cases hn : options.fixedRecordLength with
    | none => rfl
    | some n => exact congrArg some (Nat.mod_eq_of_lt (hsmall n hn))
  unfold Header.reread heading
  rw [format_asked]
  show ({ options.asked name with
    blockSize := _, fixedRecordLength := options.fixedRecordLength.map _, textName := _ } : Header) = _
  rw [hrecordLength]
  rfl

theorem nameRoom_heading (options : OpenOptions) (name : Option String) :
    (options.heading name).nameRoom =
      match options.format with
      | .modern => options.blockSize % 10 ^ 5 - (Header.nameStart + 1)
      | .legacy => Header.nameEnd - Header.nameStart := by
  unfold Header.nameRoom
  rw [format_heading]
  rfl

theorem nameRoom_asked (options : OpenOptions) (name : Option String) :
    (options.asked name).nameRoom =
      match options.format with
      | .modern => options.blockSize - (Header.nameStart + 1)
      | .legacy => Header.nameEnd - Header.nameStart := by
  unfold Header.nameRoom
  rw [format_asked]
  rfl

/-- What is read back of a block size is no larger, nor is the room for the name then. -/
theorem nameRoom_le (options : OpenOptions) (name : Option String) :
    (options.heading name).nameRoom ≤ (options.asked name).nameRoom := by
  have hsize : options.blockSize % 10 ^ 5 ≤ options.blockSize := Nat.mod_le _ _
  rw [nameRoom_heading, nameRoom_asked]
  cases options.format with
  | modern => exact Nat.sub_le_sub_right hsize _
  | legacy => exact Nat.le_refl _

theorem layout_reread (options : OpenOptions) (name : Option String) :
    (options.asked name).reread.layout =
      ⟨options.keyLength, options.blockSize % 10 ^ 5, options.format⟩ := by
  unfold Header.layout
  exact congrArg (Layout.mk _ _) (options.format_asked name)

theorem Formable.writable (h : options.Formable store) : (options.asked store.name).Writable :=
  ⟨h.keyLength, Nat.le_trans h.textName (options.nameRoom_le store.name)⟩

/-- The fields in front of the name go into the block. -/
theorem Formable.fitsBlock (h : options.Formable store) :
    minHeaderBytes ≤ options.blockSize ∧ (options.asked store.name).FitsBlock := by
  have husable := h.blockSize
  simp only [Header.usable, Bool.and_eq_true, decide_eq_true_eq] at husable
  have hmin : minHeaderBytes ≤ options.blockSize :=
    Nat.le_trans husable.1.1 (Nat.mod_le options.blockSize (10 ^ 5))
  refine ⟨hmin, Nat.le_trans ?_ hmin, h.room⟩
  unfold Header.frontSize
  cases (options.asked store.name).format <;> decide

theorem blockSizeUnfit_iff : options.BlockSizeUnfit name ↔
    (options.asked name).Writable ∧ ¬(options.asked name).FitsBlock := by
  have hfront : (options.asked name).frontSize =
      match options.format with
      | .modern => Header.nameStart + 1
      | .legacy => Header.nameEnd := by
    have hformat := options.format_asked name
    cases hf : options.format <;> simp only [Header.frontSize, hformat, hf]
  have hsame : (options.asked name).blockSize = options.blockSize := rfl
  have hfits : (options.asked name).FitsBlock ↔
      (options.asked name).frontSize ≤ options.blockSize ∧ options.blockSize ≤ Bytes.maxLength :=
    ⟨fun h => ⟨h.front, h.length⟩, fun h => ⟨h.1, h.2⟩⟩
  constructor
  · intro h
    have hblockSize := h.blockSize
    refine ⟨⟨h.keyLength, options.nameRoom_asked name ▸ h.textName⟩, ?_⟩
    rw [hfits, hfront]
    omega
  · rintro ⟨hwritable, hnot⟩
    refine ⟨hwritable.keyLength, options.nameRoom_asked name ▸ hwritable.textName, ?_⟩
    rw [hfits, hfront] at hnot
    omega

/-- What comes of the header that is asked for: an error, no end, or the first block. -/
theorem firstBlock_cases (options : OpenOptions) (store : Store) :
    (¬options.Formable store ∧ ¬options.BlockSizeUnfit store.name ∧
      ∃ e, options.firstBlock store = .error e ∧ e ≠ .outOfRange) ∨
    (¬options.Formable store ∧ options.BlockSizeUnfit store.name ∧
      options.firstBlock store = .error .outOfRange) ∨
    (options.Formable store ∧ ¬options.BlockSizeUnfit store.name ∧
      ∃ image, options.firstBlock store = .ok image ∧
        (options.asked store.name).encode = .ok image ∧
        Header.parse image = .ok (options.asked store.name).reread) := by
  have hfirst : options.firstBlock store = (options.asked store.name).encode >>= fun image =>
      Header.parse image >>= fun _ =>
        if store.kind = .memory ∨ image.length < Store.offsetBound then pure image
        else throw (.io (.system .invalidArgument)) := by
    unfold firstBlock
    rw [newHeader_eq_bind]
    cases hencode : (options.asked store.name).encode with
    | error e => rfl
    | ok image =>
      cases hparse : Header.parse image with
      | error e => simp only [hparse, bind, Except.bind]
      | ok h => simp only [hparse, hencode, pure, Except.pure, bind, Except.bind]
  have hlong : options.Formable store → (options.asked store.name).Writable ∧
      (options.asked store.name).FitsBlock := fun h => ⟨h.writable, h.fitsBlock.2⟩
  rcases (options.asked store.name).encode_cases with
    ⟨hnot, e, hencode, he⟩ | ⟨hwritable, hunfit, hencode⟩ | ⟨hwritable, hfits, image, hencode, hfront⟩
  · refine .inl ⟨fun h => hnot h.writable, fun h => hnot (blockSizeUnfit_iff.mp h).1, e, ?_, he⟩
    rw [hfirst, hencode]
    rfl
  · refine .inr (.inl ⟨fun h => hunfit (hlong h).2, blockSizeUnfit_iff.mpr ⟨hwritable, hunfit⟩, ?_⟩)
    rw [hfirst, hencode]
    rfl
  · have hunfit : ¬options.BlockSizeUnfit store.name := fun h =>
      (blockSizeUnfit_iff.mp h).2 hfits
    have hread : ∀ {h'}, minHeaderBytes ≤ image.length → (Header.parse image = .ok h' ↔
        h' = (options.asked store.name).reread ∧
        Header.usable (options.asked store.name).reread.layout = true ∧
        (Bytes.ofText (options.askedName store.name)).length ≤ (options.heading store.name).nameRoom) :=
      fun hlong => hfront.written.parse_eq_ok_iff (options.version_asked store.name)
        hwritable.keyLength hlong hwritable.textName
    have hlength : image.length = options.blockSize := hfront.length
    by_cases hformable : options.Formable store
    · have hparse := (hread (hlength ▸ hformable.fitsBlock.1)).mpr ⟨rfl,
        layout_reread options store.name ▸ hformable.blockSize, hformable.textName⟩
      refine .inr (.inr ⟨hformable, hunfit, image, ?_, hencode, hparse⟩)
      rw [hfirst, hencode]
      show (Header.parse image >>= _) = _
      rw [hparse]
      exact if_pos (.inr (hlength ▸ Nat.lt_succ_of_le hformable.room))
    · refine .inl ⟨hformable, hunfit, ?_⟩
      rw [hfirst, hencode]
      show ∃ e, (Header.parse image >>= _) = .error e ∧ e ≠ .outOfRange
      rcases Header.judges_parse image with ⟨h', hparse⟩ | ⟨d, hparse⟩
      · have hlong := Header.minHeaderBytes_le_length hparse
        obtain ⟨-, husable, hname⟩ := (hread hlong).mp hparse
        rw [hparse]
        exact absurd ⟨hwritable.keyLength, layout_reread options store.name ▸ husable, hname,
          hfits.length⟩ hformable
      · rw [hparse]
        exact ⟨_, rfl, nofun⟩

theorem of_firstBlock_eq_ok {image : Bytes} (hfirst : options.firstBlock store = .ok image) :
    options.Formable store ∧ (options.asked store.name).encode = .ok image ∧
      Header.parse image = .ok (options.asked store.name).reread := by
  rcases options.firstBlock_cases store with
    ⟨-, -, e, he, -⟩ | ⟨-, -, he⟩ | ⟨hformable, -, image', himage, hread⟩
  · exact nomatch hfirst.symm.trans he
  · exact nomatch hfirst.symm.trans he
  · exact ⟨hformable, Except.ok.inj (himage.symm.trans hfirst) ▸ hread⟩

theorem Formable.exists_firstBlock (h : options.Formable store) :
    ∃ image, options.firstBlock store = .ok image := by
  rcases options.firstBlock_cases store with ⟨hnot, -⟩ | ⟨hnot, -⟩ | ⟨-, -, image, himage, -⟩
  · exact absurd h hnot
  · exact absurd h hnot
  · exact ⟨image, himage⟩

/-- Whether the header that is read back may be opened as it was asked for. -/
theorem admits_reread (options : OpenOptions) (name : Option String) :
    options.admits (options.asked name).reread =
      match options.fixedRecordLength with
      | none => .ok ()
      | some n => if n < 10 ^ 5 then .ok () else .error (.badRecordLength (n % 10 ^ 5) n) := by
  have hkeyLength : (options.asked name).reread.keyLength = options.keyLength := rfl
  have hduplicates :
      ((options.asked name).reread.duplicates && options.duplicates == .forbid) = false := by
    show ((options.duplicates == .allow) && options.duplicates == .forbid) = false
    cases options.duplicates <;> rfl
  have hrecordLength : (options.asked name).reread.fixedRecordLength =
      options.fixedRecordLength.map (· % 10 ^ 5) := rfl
  unfold admits
  rw [hkeyLength, hduplicates, hrecordLength]
  cases options.fixedRecordLength with
  | none => simp [pure, Except.pure]
  | some n =>
    by_cases hn : n < 100000
    · have hkept : n % 100000 = n := Nat.mod_eq_of_lt hn
      simp [hkept, hn, pure, Except.pure]
    · have hlost : ¬n = n % 100000 := by omega
      simp [hn, hlost, bind, Except.bind, throw, throwThe, MonadExceptOf.throw]

/-- It may, or its record length is another one than the one asked for. -/
theorem admits_reread_cases (options : OpenOptions) (name : Option String) :
    ((∀ n ∈ options.fixedRecordLength, n < 10 ^ 5) ∧
      options.admits (options.asked name).reread = .ok ()) ∨
    ∃ n, options.fixedRecordLength = some n ∧ 10 ^ 5 ≤ n ∧
      options.admits (options.asked name).reread = .error (.badRecordLength (n % 10 ^ 5) n) := by
  rw [admits_reread]
  cases options.fixedRecordLength with
  | none => exact .inl ⟨nofun, rfl⟩
  | some n =>
    by_cases hn : n < 10 ^ 5
    · exact .inl ⟨fun m hm => Option.some.inj hm ▸ hn, if_pos hn⟩
    · exact .inr ⟨n, rfl, Nat.le_of_not_lt hn, if_neg hn⟩

end OpenOptions

namespace Index

variable {store : Store} {options : OpenOptions} {w w' : Workspace} {cell : Nat} {ix : Index}

/-- The header of a new file is read from its volume, whatever was there before. -/
theorem parse_of_write {c : Contents} {h h' : Header} {image : Bytes} {format : Format}
    (hencode : h.encode = .ok image) (hversion : h.version = format.newVersion)
    (hparse : Header.parse image = .ok h') :
    Header.parse ((c.write 0 image).read 0 maxBlockSize) = .ok h' := by
  obtain ⟨hlength, -, hfronts⟩ := Header.fronts_of_encode hencode
  obtain ⟨hworkable, -, hsize⟩ := hfronts.parse hversion hparse
  have hsmall : h'.blockSize ≤ maxBlockSize := hworkable.small
  refine Header.parse_of_take_eq hparse ?_
  rw [Contents.take_read _ hsmall, read_write_front (hlength ▸ hsize)]

/-- What comes of opening a new file on a store that refuses nothing. -/
theorem openStore_created (hcreate : options.mode = .create)
    (hvolume : store.volume < w.disk.volumes.size) (hreliable : store.Reliable w.disk) :
    Ends (openStore store options cell) w fun r w' =>
      (∀ id, id ≠ store.volume → w'.disk.contents id = w.disk.contents id) ∧
      match options.firstBlock store with
      | .error e => r = .error e ∧ w'.disk.contents store.volume = w.disk.contents store.volume
      | .ok image =>
        w'.disk.contents store.volume = (w.disk.contents store.volume).write 0 image ∧
        r.map Index.header = (options.admits (options.asked store.name).reread).map
          fun _ => (options.asked store.name).reread := by
  have hmade : Ends (if options.mode = .create then Workspace.onDisk (createOn store options)
      else pure ()) w fun r w' => w.disk.Follows w'.disk ∧
        (∀ id, id ≠ store.volume → w'.disk.contents id = w.disk.contents id) ∧
        match options.firstBlock store with
        | .error e => r = .error e ∧ w'.disk.contents store.volume = w.disk.contents store.volume
        | .ok image => r = .ok () ∧
            w'.disk.contents store.volume = (w.disk.contents store.volume).write 0 image := by
    rw [if_pos hcreate]
    refine Workspace.onDisk_ends ((createOn_told hreliable hvolume).mono ?_)
    rintro r d ⟨hfollows, hothers, hcase⟩
    refine ⟨hfollows, hothers, ?_⟩
    cases hfirst : options.firstBlock store <;> rw [hfirst] at hcase <;> exact hcase
  unfold openStore
  refine Ends.ite_bind (Ends.bind hmade ?_ ?_)
  · rintro e w' ⟨-, hothers, hcase⟩
    refine ⟨hothers, ?_⟩
    cases hfirst : options.firstBlock store with
    | error e' =>
      rw [hfirst] at hcase
      exact ⟨congrArg Except.error (Except.error.inj hcase.1), hcase.2⟩
    | ok image =>
      rw [hfirst] at hcase
      exact nomatch hcase.1
  · rintro ⟨⟩ w₁ ⟨hfollows, hothers, hcase⟩
    cases hfirst : options.firstBlock store with
    | error e =>
      rw [hfirst] at hcase
      exact nomatch hcase.1
    | ok image =>
      rw [hfirst] at hcase
      obtain ⟨-, hwritten⟩ := hcase
      obtain ⟨-, hencode, hread⟩ := OpenOptions.of_firstBlock_eq_ok hfirst
      have hparse := parse_of_write (c := w.disk.contents store.volume) hencode
        (options.version_asked_eq store.name) hread
      rw [← hwritten] at hparse
      refine Ends.bind (P := fun r w' => (∀ id, w'.disk.contents id = w₁.disk.contents id) ∧
        r = (options.admits (options.asked store.name).reread).map
          fun _ => (options.asked store.name).reread) (Workspace.onDisk_ends ?_) ?_ ?_
      · refine readHeader_ends.mono fun r d hd => ⟨hd.contents, ?_⟩
        rw [hd.told (hreliable.follows hfollows).yields, hparse]
        show (options.admits _ >>= fun _ => pure _) = _
        cases options.admits (options.asked store.name).reread <;> rfl
      · rintro e w₂ ⟨hsame, hr⟩
        refine ⟨fun id hid => (hsame id).trans (hothers id hid), (hsame _).trans hwritten, ?_⟩
        rw [← hr]
        rfl
      · rintro header w₂ ⟨hsame, hr⟩
        refine ⟨fun id hid => (hsame id).trans (hothers id hid), (hsame _).trans hwritten, ?_⟩
        rw [← hr]
        rfl

/-! ## Opening again -/

/-- Contents with a header that can be read and may be opened. -/
theorem reopens_of_parse {c : Contents} {header : Header}
    (hparse : Header.parse (c.read 0 maxBlockSize) = .ok header)
    (hadmits : options.admits header = .ok ()) : options.Reopens header c := by
  rintro mode store cell u hmode hyields rfl
  refine (openStore_ends fun h => absurd h hmode).mono fun r u' ⟨hopens, hopened⟩ => ?_
  obtain ⟨ix, rfl⟩ := hopens hmode hyields header hparse hadmits
  refine ⟨ix, rfl, ?_⟩
  obtain ⟨d, -, -, hsame, hread, -⟩ := (hopened ix rfl).disk
  rw [hsame hmode, hparse] at hread
  exact (Except.ok.inj hread).symm

/-- A file that a handle has for itself, at any time and when the handle is given up. -/
theorem SoleOnTidy.reopens (h : ix.SoleOnTidy w) (hadmits : options.admits ix.header = .ok ()) :
    options.Reopens ix.header (w.disk.contents ix.store.volume) ∧
      ∀ way ∈ [close, drop], Ends way (ix, w) fun _ σ =>
        options.Reopens ix.header (σ.2.disk.contents ix.store.volume) := by
  have hclose : Ends close (ix, w) fun _ σ =>
      options.Reopens ix.header (σ.2.disk.contents ix.store.volume) := by
    refine h.close_ends.mono ?_
    rintro r _ ⟨s, t, rfl, hs, hdisk, -⟩
    show options.Reopens ix.header (t.disk.contents ix.store.volume)
    rw [hdisk]
    exact reopens_of_parse hs.tidyAtRest.tidy.contents.parse hadmits
  refine ⟨reopens_of_parse h.tidyAtRest.tidy.contents.parse hadmits, fun way hway => ?_⟩
  simp only [List.mem_cons, List.not_mem_nil, or_false] at hway
  rcases hway with rfl | rfl
  · exact hclose
  · unfold drop
    exact Ends.attempt_bind hclose fun _ _ hσ => hσ

/-- A file that is made in an empty volume is tidy if its block size is read back as it was asked
for. -/
theorem tidy_of_firstBlock {image : Bytes} (hfirst : options.firstBlock store = .ok image)
    (hsize : options.blockSize < 10 ^ 5) :
    (({} : Contents).write 0 image).Tidy (options.asked store.name).reread := by
  obtain ⟨-, hencode, hread⟩ := OpenOptions.of_firstBlock_eq_ok hfirst
  have hlength := (Header.fronts_of_encode hencode).1
  have hversion := options.version_asked_eq store.name
  refine tidy_of_encode hencode hversion (parse_of_write hencode hversion hread) fun i hi => ?_
  have hbehind : options.blockSize ≤ i := by
    rw [← Nat.mod_eq_of_lt hsize]
    exact hi
  have hout : ¬(0 ≤ i ∧ i < 0 + image.length) := by
    rw [hlength]
    show ¬(0 ≤ i ∧ i < 0 + options.blockSize)
    omega
  rw [Contents.byte_write, if_neg hout]
  exact Contents.byte_empty i

/-- A handle on a file that was just made. -/
theorem Opened.reopens {image : Bytes} (h : Opened store options cell w ix w')
    (hfirst : options.firstBlock store = .ok image)
    (hwritten : w'.disk.contents store.volume = (w.disk.contents store.volume).write 0 image)
    (hheader : ix.header = (options.asked store.name).reread)
    (hadmits : options.admits ix.header = .ok ()) :
    options.Reopens ix.header (w'.disk.contents store.volume) ∧
      (options.blockSize < 10 ^ 5 → w.disk.contents store.volume = {} →
        w.Admits store (options.cache.getD Workspace.commonCache) cell →
        (∀ id, (w.cache id).Untaken store.volume) →
        ∀ ix' v, Relation.ReflTransGen Meanwhile (ix, w') (ix', v) →
          options.Reopens ix.header (v.disk.contents store.volume) ∧
          ∀ way ∈ [close, drop], Ends way (ix', v) fun _ σ =>
            options.Reopens ix.header (σ.2.disk.contents store.volume)) := by
  refine ⟨reopens_of_parse ?_ hadmits, fun hsize hempty hw hsole ix' v hrun => ?_⟩
  · obtain ⟨-, hencode, hread⟩ := OpenOptions.of_firstBlock_eq_ok hfirst
    rw [hwritten, hheader]
    exact parse_of_write hencode (options.version_asked_eq store.name) hread
  · have htidy : (w'.disk.contents store.volume).Tidy ix.header := by
      rw [hwritten, hempty, hheader]
      exact tidy_of_firstBlock hfirst hsize
    obtain ⟨hsame, hsoleOnTidy⟩ := (h.soleOnTidy hw hsole htidy).history (σ := (ix, w')) hrun
    have hsame : ix' = { ix with cursor := ix'.cursor } := hsame
    have hheader' : ix'.header = ix.header := by rw [hsame]
    have hstore : ix'.store = store := by
      rw [hsame]
      exact h.store
    have hreopens := hsoleOnTidy.reopens (hheader'.symm ▸ hadmits)
    rwa [hheader', hstore] at hreopens

/-- The header of a file that is made on a store that refuses nothing. The call is abandoned in the
middle for a block that is too short for the fields or larger than any there can be. Otherwise it
ends with an error, or the file has the header that was asked for but for the digits of a block size
that do not go into the field. As long as that loses none, and there was nothing in the store, the
file can be opened again as it was opened now, whatever is done with the handle and beside it. -/
theorem heading_of_create (hcreate : options.mode = .create)
    (hvolume : store.volume < w.disk.volumes.size) (hreliable : store.Reliable w.disk) :
    Ends (openStore store options cell) w fun r w' =>
      (r = .error .outOfRange ↔ options.BlockSizeUnfit store.name) ∧
      ((∃ ix, r = .ok ix) ↔ options.Acceptable store) ∧
      ∀ ix, r = .ok ix → ix.header = options.heading store.name ∧
        options.Reopens ix.header (w'.disk.contents store.volume) ∧
        (options.blockSize < 10 ^ 5 → w.disk.contents store.volume = {} →
          w.Admits store (options.cache.getD Workspace.commonCache) cell →
          (∀ id, (w.cache id).Untaken store.volume) →
          ∀ ix' v, Relation.ReflTransGen Meanwhile (ix, w') (ix', v) →
            options.Reopens ix.header (v.disk.contents store.volume) ∧
            ∀ way ∈ [close, drop], Ends way (ix', v) fun _ σ =>
              options.Reopens ix.header (σ.2.disk.contents store.volume)) := by
  refine ((openStore_created hcreate hvolume hreliable).and
    (openStore_ends fun _ => hvolume)).mono ?_
  rintro r w' ⟨⟨-, hcase⟩, -, hopened⟩
  rcases options.firstBlock_cases store with
    ⟨hformable, hunfit, e, hfirst, he⟩ | ⟨hformable, hunfit, hfirst⟩ |
      ⟨hformable, hunfit, image, hfirst, hencode, hread⟩
  · rw [hfirst] at hcase
    obtain ⟨rfl, -⟩ := hcase
    refine ⟨iff_of_false (fun h => he (Except.error.inj h)) hunfit,
      iff_of_false (fun ⟨ix, h⟩ => ?_) fun h => hformable h.formable, fun ix h => ?_⟩ <;> cases h
  · rw [hfirst] at hcase
    obtain ⟨rfl, -⟩ := hcase
    refine ⟨iff_of_true rfl hunfit,
      iff_of_false (fun ⟨ix, h⟩ => ?_) fun h => hformable h.formable, fun ix h => ?_⟩ <;> cases h
  · rw [hfirst] at hcase
    obtain ⟨hwritten, hr⟩ := hcase
    rcases options.admits_reread_cases store.name with
      ⟨hsmall, hadmits⟩ | ⟨n, hn, hlarge, hadmits⟩
    · rw [hadmits] at hr
      cases r with
      | error e => cases hr
      | ok made =>
        have hheader : made.header = (options.asked store.name).reread := Except.ok.inj hr
        refine ⟨iff_of_false (fun h => ?_) hunfit,
          iff_of_true ⟨made, rfl⟩ ⟨hformable, hsmall⟩, fun ix h => ?_⟩
        · cases h
        · cases h
          rw [← hheader] at hadmits
          exact ⟨hheader.trans (OpenOptions.reread_asked hsmall),
            (hopened made rfl).reopens hfirst hwritten hheader hadmits⟩
    · rw [hadmits] at hr
      cases r with
      | ok made => cases hr
      | error e =>
        have he : e = .badRecordLength (n % 10 ^ 5) n := Except.error.inj hr
        refine ⟨iff_of_false (fun h => ?_) hunfit, iff_of_false (fun ⟨ix, h⟩ => ?_) fun h =>
          Nat.not_lt_of_le hlarge (h.recordLength n hn), fun ix h => ?_⟩
        · rw [he] at h
          cases h
        all_goals cases h

/-- Files in the memory area: two calls that are abandoned, a file with another block size than the
one asked for, and a file that is opened again after an entry was added and the handle was
closed. -/
theorem heading_of_create_new :
    let store := Store.ofMemory 0 none
    let small : OpenOptions := { mode := .create, keyLength := 4, blockSize := 64 }
    let huge : OpenOptions := { mode := .create, keyLength := 4, blockSize := 2 ^ 63 + 25216 }
    let large : OpenOptions := { mode := .create, keyLength := 4, blockSize := 101024 }
    let old : OpenOptions :=
      { mode := .create, keyLength := 4, blockSize := 512, format := .legacy, textName := "a.dat  " }
    (ending (openStore store small 0) newWorkspace).1 = .error .outOfRange ∧
    (ending (openStore store huge 0) newWorkspace).1 = .error .outOfRange ∧
    (∃ ix, (ending (openStore store large 0) newWorkspace).1 = .ok ix ∧ ix.header.blockSize = 1024) ∧
    ∃ ix w', (ending (openStore store old 0) newWorkspace) = (.ok ix, w') ∧
      ix.header = ⟨8, 512, 4, false, none, "a.dat", false⟩ ∧
      Ends close (ending (Visit.call ⟨(), none, .insert [0x41]⟩).run (ix, w')).2 fun _ σ =>
        old.Reopens ix.header (σ.2.disk.contents 0) := by
  intro store small huge large old
  have hreliable : store.Reliable newWorkspace.disk := ⟨fun _ _ => rfl, rfl, .inl rfl⟩
  have hmakes : ∀ options : OpenOptions, options.mode = .create → _ := fun options hcreate =>
    (@heading_of_create store options newWorkspace 0 hcreate Nat.one_pos hreliable).ending
  refine ⟨(hmakes small rfl).1.mpr ⟨by decide, by decide +kernel, by decide⟩,
    (hmakes huge rfl).1.mpr ⟨by decide, by decide +kernel, by decide⟩, ?_, ?_⟩
  · obtain ⟨-, hopened, htold⟩ := hmakes large rfl
    obtain ⟨ix, hix⟩ := hopened.mpr ⟨⟨by decide, by decide, by decide +kernel, by decide⟩, nofun⟩
    have hlost : 101024 % 10 ^ 5 = 1024 := by decide
    exact ⟨ix, hix, (congrArg Header.blockSize (htold ix hix).1).trans hlost⟩
  · have hold := hmakes old rfl
    have hempty : newWorkspace.disk.contents 0 = {} := rfl
    have hadmits : newWorkspace.Admits store 0 0 := admits_new
    have huntaken := untaken_new
    clear hmakes hreliable
    generalize newWorkspace = w at *
    cases hσ : ending (openStore store old 0) w with
    | mk r w' =>
      rw [hσ] at hold
      obtain ⟨-, hopened, htold⟩ := hold
      obtain ⟨ix, rfl⟩ := hopened.mpr ⟨⟨by decide, by decide, by decide +kernel, by decide⟩, nofun⟩
      obtain ⟨hheader, -, hlater⟩ := htold ix rfl
      have htrimmed : old.heading store.name = ⟨8, 512, 4, false, none, "a.dat", false⟩ := by
        decide +kernel
      refine ⟨ix, w', rfl, hheader.trans htrimmed, ?_⟩
      have hrun : Relation.ReflTransGen Meanwhile (ix, w') _ :=
        .single (.visited ix w' (.call ⟨(), none, .insert [0x41]⟩))
      generalize (ending (Visit.call ⟨(), none, .insert [0x41]⟩).run (ix, w')).2 = σ at hrun ⊢
      exact (hlater (by decide) hempty hadmits huntaken σ.1 σ.2 hrun).2 close List.mem_cons_self

end Index

end PagedIndex
