import PagedIndex.Proofs.Codec.Header

/-!
# Headers can be read back

What is written of a header is read back, but for digits that do not go into their field and blanks
behind a legacy name. The header of a new file that has neither is read back as it was, its text
name among it, and no pointers that are saved in the header block later change that.

## Main definitions

* `Header.reread` — the header that is read from what is written of one.
* `Header.Regular` — headers that are read back as they were.

## Main statements

* `Header.Written.parse_eq_ok_iff` — which headers are read at all, and what is read.
* `Header.Regular.parse_encode` — the first block of a new file, and of one that is in use.
-/

namespace PagedIndex

namespace Decimal

theorem isDigit_digit {d : Nat} (hd : d < 10) : isDigit (digit d) = true := by
  revert d
  decide

/-- Blanks, and digits behind them. -/
theorem leading_eq (width n : Nat) : ∃ k digits, leading width n = List.replicate k blank ++ digits ∧
    digits.all isDigit = true := by
  induction width generalizing n with
  | zero => exact ⟨0, [], rfl, rfl⟩
  | succ width ih =>
    unfold leading
    split
    · exact ⟨width + 1, [], (List.append_nil _).symm, rfl⟩
    · obtain ⟨k, digits, hleading, hdigits⟩ := ih (n / 10)
      refine ⟨k, digits ++ [digit (n % 10)], by rw [hleading, List.append_assoc], ?_⟩
      simp [hdigits, isDigit_digit (Nat.mod_lt n (by decide))]

theorem dropWhile_blank_of_all_isDigit {b : Bytes} (hb : b.all isDigit = true) :
    b.dropWhile (· == blank) = b := by
  cases b with
  | nil => rfl
  | cons d b =>
    have hd : isDigit d = true := List.all_eq_true.mp hb d List.mem_cons_self
    rw [List.dropWhile_cons_of_neg]
    simp only [beq_iff_eq]
    rintro rfl
    exact absurd hd (by decide)

/-- A number is read back from its field, without the digits that do not go into it. -/
theorem parse?_field {width : Nat} (hwidth : width < 19) (n : Nat) :
    parse? (field (width + 1) n) = some (n % 10 ^ (width + 1)) := by
  obtain ⟨k, digits, hleading, hdigits⟩ := leading_eq width (n / 10)
  have hall : (digits ++ [digit (n % 10)]).all isDigit = true := by
    simp [hdigits, isDigit_digit (Nat.mod_lt n (by decide))]
  have hfield : field (width + 1) n = List.replicate k blank ++ (digits ++ [digit (n % 10)]) := by
    rw [field, hleading, List.append_assoc]
  have hdrop : (field (width + 1) n).dropWhile (· == blank) = digits ++ [digit (n % 10)] := by
    rw [hfield, List.dropWhile_append_of_pos fun d hd => by simp [List.eq_of_mem_replicate hd],
      dropWhile_blank_of_all_isDigit hall]
  have hvalue : value (digits ++ [digit (n % 10)]) = n % 10 ^ (width + 1) := by
    rw [← hdrop, value_dropWhile_blank, value_field_eq_mod (Nat.succ_pos width)]
  have hbound : n % 10 ^ (width + 1) < bound :=
    Nat.lt_of_lt_of_le (Nat.mod_lt n (Nat.pow_pos (by decide)))
      (Nat.le_trans (Nat.pow_le_pow_right (by decide) hwidth) (by decide))
  simp [parse?, hdrop, hvalue, hbound, hall]

end Decimal

namespace Header

def reread (h : Header) : Header :=
  { h with
    blockSize := h.blockSize % 10 ^ 5
    fixedRecordLength := h.fixedRecordLength.map (· % 10 ^ 5)
    textName :=
      match h.format with
      | .modern => h.textName
      | .legacy => Bytes.trimmed h.textName }

variable {h : Header}

/-- The versions that are written know the record kinds that are written in them. -/
theorem contains_recordKind (hversion : 7 ≤ h.version ∧ h.version ≤ 10) :
    (knownKinds h.version).contains h.recordKind = true := by
  obtain ⟨hlow, hhigh⟩ := hversion
  unfold recordKind format
  generalize h.version = version at hlow hhigh
  obtain rfl | rfl | rfl | rfl : version = 7 ∨ version = 8 ∨ version = 9 ∨ version = 10 := by omega
  all_goals cases h.fixedRecordLength <;> rfl

/-! ## Where the fields stand -/

theorem drop_fixedPart_flags (h : Header) : (h.fixedPart.drop 54).take 4 =
    [0x4C, if h.textRelative then 0x54 else blank, if h.duplicates then 0x44 else blank,
      h.recordKind] := by
  unfold fixedPart
  simp [List.drop_append, Decimal.length_field, keyLengthField, Decimal.drop_field]

theorem drop_fixedPart_keyLength (h : Header) :
    (h.fixedPart.drop 58).take 2 = keyLengthField h.keyLength := by
  unfold fixedPart
  simp [List.drop_append, Decimal.length_field, keyLengthField, Decimal.drop_field]

theorem drop_fixedPart_recordLength (h : Header) {n : Nat} (hn : h.fixedRecordLength = some n) :
    (h.fixedPart.drop 64).take 5 = Decimal.field 5 n := by
  unfold fixedPart
  simp [List.drop_append, Decimal.length_field, keyLengthField, Decimal.drop_field, hn]

theorem drop_fixedPart_end (h : Header) : (h.fixedPart.drop 98).take 3 =
    Decimal.field 2 h.version ++ [endOfRecord] := by
  unfold fixedPart
  cases h.fixedRecordLength <;>
    simp [List.drop_append, Decimal.length_field, keyLengthField, Decimal.drop_field,
      List.take_of_length_le]

/-- A byte of a field. -/
theorem byteAt_add_of_take {data field : Bytes} {i n : Nat} (h : (data.drop i).take n = field)
    {j : Nat} (hj : j < n) : byteAt data (i + j) = byteAt field j := by
  unfold byteAt
  rw [← h, List.drop_take, ← List.drop_drop, List.headD_eq_head?_getD, List.headD_eq_head?_getD,
    List.head?_take, if_neg (by omega)]

section Fields

variable {data : Bytes}

/-- A key length is read back from its two characters. -/
theorem readKeyLength_of_take {keyLength : Nat} (hmax : keyLength ≤ maxKeyLength)
    (h : (data.drop 58).take 2 = keyLengthField keyLength) : readKeyLength data = keyLength := by
  obtain ⟨htens, hones⟩ := byteAt_eq_of_take h
  unfold readKeyLength
  rw [htens, hones]
  clear htens hones h
  revert keyLength
  decide +kernel

/-- A version that is written is read back from its two digits. -/
theorem readVersion_of_take_three {version : Nat} (hlow : 7 ≤ version) (hhigh : version ≤ 10)
    (h : (data.drop 98).take 3 = Decimal.field 2 version ++ [endOfRecord]) :
    readVersion data = version ∧ byteAt data 100 = endOfRecord := by
  have hbyte : ∀ j < 3, byteAt data (98 + j) = byteAt (Decimal.field 2 version ++ [endOfRecord]) j :=
    fun j hj => byteAt_add_of_take h hj
  unfold readVersion
  rw [hbyte 0 (by decide), hbyte 1 (by decide), hbyte 2 (by decide)]
  clear hbyte h
  obtain rfl | rfl | rfl | rfl : version = 7 ∨ version = 8 ∨ version = 9 ∨ version = 10 := by omega
  all_goals decide

namespace Written

theorem byteAt_flags (hw : h.Written data) {j : Nat} (hj : j < 4) :
    byteAt data (54 + j) = byteAt [0x4C, if h.textRelative then 0x54 else blank,
      if h.duplicates then 0x44 else blank, h.recordKind] j :=
  byteAt_add_of_take ((hw.slice (by decide) (by decide)).trans h.drop_fixedPart_flags) hj

theorem parse?_blockSize (hw : h.Written data) :
    Decimal.parse? ((data.drop 41).take 5) = some (h.blockSize % 10 ^ 5) := by
  rw [hw.slice (by decide) (by decide), drop_fixedPart_blockSize, Decimal.parse?_field (by decide)]

theorem parse?_recordLength (hw : h.Written data) {n : Nat} (hn : h.fixedRecordLength = some n) :
    Decimal.parse? ((data.drop 64).take 5) = some (n % 10 ^ 5) := by
  rw [hw.slice (by decide) (by decide), h.drop_fixedPart_recordLength hn,
    Decimal.parse?_field (by decide)]

theorem readKeyLength_eq (hw : h.Written data) (hmax : h.keyLength ≤ maxKeyLength) :
    readKeyLength data = h.keyLength :=
  readKeyLength_of_take hmax ((hw.slice (by decide) (by decide)).trans h.drop_fixedPart_keyLength)

theorem readVersion_eq (hw : h.Written data) (hversion : 7 ≤ h.version ∧ h.version ≤ 10) :
    readVersion data = h.version ∧ byteAt data 100 = endOfRecord :=
  readVersion_of_take_three hversion.1 hversion.2
    ((hw.slice (by decide) (by decide)).trans h.drop_fixedPart_end)

/-- The name that ends a modern header is read back from a block that it ends in, and the name that
pads a legacy header from any. -/
theorem readName_eq_ok_iff (hw : h.Written data) {l : Layout} (hformat : l.format = h.format)
    (hlegacy : h.format = .legacy → (Bytes.ofText h.textName).length ≤ nameEnd - nameStart)
    {name : Bytes} :
    readName l data = .ok name ↔ name = Bytes.ofText h.reread.textName ∧
      (h.format = .modern → nameStart + 1 + (Bytes.ofText h.textName).length ≤ l.blockSize) := by
  obtain ⟨rest, hdata⟩ := hw.name
  have hfree : ∀ b ∈ Bytes.ofText h.textName, b ≠ endOfRecord := fun b => ne_endOfRecord_of_mem
  unfold nameField at hdata
  unfold reread readName
  rw [hformat]
  cases hf : h.format with
  | modern =>
    have hroom : (data.take l.blockSize).drop nameStart =
        (Bytes.ofText h.textName ++ (endOfRecord :: rest)).take (l.blockSize - nameStart) := by
      rw [List.drop_take, hdata, hf, List.append_assoc, List.singleton_append]
    dsimp only
    rw [hroom]
    by_cases hends : nameStart + 1 + (Bytes.ofText h.textName).length ≤ l.blockSize
    · obtain ⟨k, hk⟩ : ∃ k, l.blockSize - nameStart = (Bytes.ofText h.textName).length + (k + 1) :=
        ⟨l.blockSize - nameStart - (Bytes.ofText h.textName).length - 1, by omega⟩
      rw [hk, List.take_length_add_append, List.take_succ_cons, if_pos (by simp),
        List.takeWhile_append_of_pos fun b hb => by simpa using hfree b hb]
      simp [hends, eq_comm]
    · rw [List.take_append_of_le_length (by omega), if_neg fun hmem => ?_]
      · simp [hends]
      · rw [List.contains_iff_mem] at hmem
        exact hfree _ (List.mem_of_mem_take hmem) rfl
  | legacy =>
    have hfield : (data.take nameEnd).drop nameStart = Bytes.ofText h.textName ++
        List.replicate (nameEnd - nameStart - (Bytes.ofText h.textName).length) blank := by
      rw [List.drop_take, hdata, hf, List.take_left' (Bytes.length_resize _ _ _), Bytes.resize,
        List.take_of_length_le (hlegacy hf)]
    dsimp only
    rw [hfield, List.reverse_append, List.reverse_replicate,
      List.dropWhile_append_of_pos fun b hb => by simp [List.eq_of_mem_replicate hb],
      ← Bytes.ofText_trimmed]
    simp [eq_comm]

end Written

end Fields

/-! ## The whole header -/

section Whole

variable {data : Bytes} (hversion : 7 ≤ h.version ∧ h.version ≤ 10)
  (hkeyLength : 1 ≤ h.keyLength ∧ h.keyLength ≤ maxKeyLength)

include hversion hkeyLength

/-- A header is read from any bytes that hold what is written of it, if its block size can be used
and its name goes into such a block. -/
theorem Written.parse_eq_ok (hw : h.Written data) (hlong : minHeaderBytes ≤ data.length)
    (husable : usable h.reread.layout = true)
    (hroom : (Bytes.ofText h.textName).length ≤ h.reread.nameRoom) : parse data = .ok h.reread := by
  obtain ⟨hread, hend⟩ := hw.readVersion_eq hversion
  have hkeyField := hw.readKeyLength_eq hkeyLength.2
  have hkind : byteAt data 57 = h.recordKind := hw.byteAt_flags (j := 3) (by decide)
  have hrelative : (byteAt data 55 == 0x54) = h.textRelative := by
    rw [hw.byteAt_flags (j := 1) (by decide)]
    cases h.textRelative <;> rfl
  have hduplicates : (byteAt data 56 == 0x44) = h.duplicates := by
    rw [hw.byteAt_flags (j := 2) (by decide)]
    cases h.duplicates <;> rfl
  have hlayout : (⟨h.keyLength, h.blockSize % 10 ^ 5, Format.ofVersion h.version⟩ : Layout) =
      h.reread.layout := rfl
  have hblock : minHeaderBytes ≤ h.reread.blockSize := by
    simp only [usable, Bool.and_eq_true, decide_eq_true_eq] at husable
    exact husable.1.1
  have hname : readName h.reread.layout data = .ok (Bytes.ofText h.reread.textName) := by
    have hmin : minHeaderBytes = 512 := rfl
    refine (hw.readName_eq_ok_iff rfl ?_).mpr ⟨rfl, ?_⟩
    all_goals
      intro hf
      have hf' : h.reread.format = _ := hf
      simp only [nameRoom, hf'] at hroom
    · exact hroom
    · show _ ≤ h.reread.blockSize
      simp only [nameStart] at hroom ⊢
      omega
  have hrange : ¬((h.keyLength : Int) < 1 ∨ (h.keyLength : Int) > maxKeyLength) := by omega
  have hchecks : (BlockKind.header.tag != BlockKind.header.tag || endOfRecord != endOfRecord ||
      !(knownKinds h.version).contains h.recordKind) = false := by
    rw [contains_recordKind hversion]
    rfl
  have hheader : ∀ fixed, h.reread.fixedRecordLength = fixed → (⟨h.version, h.blockSize % 10 ^ 5,
      h.keyLength, h.duplicates, fixed, Lossy.decode (Bytes.ofText h.reread.textName),
      h.textRelative⟩ : Header) = h.reread := by
    rintro _ rfl
    rw [Lossy.decode_ofText]
    rfl
  unfold parse
  rw [if_neg (by omega)]
  simp only [hread, hkind, hw.tag, hend, hchecks, hw.parse?_blockSize, hkeyField, hlayout, husable,
    hname, hrelative, hduplicates, hrange, pure_bind, Int.toNat_natCast, Bool.false_eq_true, if_false,
    Bool.not_true, ← Bool.decide_or, decide_eq_true_eq]
  cases hn : h.fixedRecordLength with
  | some n =>
    have hfixed : h.recordKind = 0x53 := by
      unfold recordKind
      rw [hn]
    rw [if_pos (.inr hfixed), hw.parse?_recordLength hn]
    exact congrArg Except.ok (hheader _ (congrArg (Option.map _) hn))
  | none =>
    have hfree : ¬(h.recordKind = 0x46 ∨ h.recordKind = 0x53) := by
      unfold recordKind
      rw [hn]
      cases h.format <;> decide
    rw [if_neg hfree]
    exact congrArg Except.ok (hheader _ (congrArg (Option.map _) hn))

/-- And from no others. -/
theorem Written.parse_eq_ok_iff (hw : h.Written data) (hlong : minHeaderBytes ≤ data.length)
    (hroom : (Bytes.ofText h.textName).length ≤ h.nameRoom) {h' : Header} :
    parse data = .ok h' ↔ h' = h.reread ∧ usable h.reread.layout = true ∧
      (Bytes.ofText h.textName).length ≤ h.reread.nameRoom := by
  constructor
  · intro hp
    have hchecked := checked_of_parse hp
    have hblockSize : h.blockSize % 10 ^ 5 = h'.blockSize :=
      Option.some.inj (hw.parse?_blockSize.symm.trans hchecked.readBlockSize)
    have hkey : h'.keyLength = h.keyLength := by
      rw [hchecked.readKeyLength, hw.readKeyLength_eq hkeyLength.2, Int.toNat_natCast]
    have hver : h'.version = h.version := by
      rw [hchecked.readVersion, (hw.readVersion_eq hversion).1, Int.toNat_natCast]
    have hformat : h'.format = h.format := congrArg Format.ofVersion hver
    have hlayout : h'.layout = h.reread.layout := by
      unfold layout
      rw [← hblockSize, hkey, hformat]
      rfl
    have husable : usable h.reread.layout = true := hlayout ▸ hchecked.usable
    have hfits : (Bytes.ofText h.textName).length ≤ h.reread.nameRoom := by
      have hf' : h.reread.format = h.format := rfl
      obtain ⟨name, hname⟩ := hchecked.readName
      unfold nameRoom at hroom ⊢
      rw [hf']
      cases hf : h.format with
      | modern =>
        have hends := ((hw.readName_eq_ok_iff hformat (by simp [hf])).mp hname).2 hf
        have hends' : nameStart + 1 + (Bytes.ofText h.textName).length ≤ h.reread.blockSize :=
          Nat.le_trans hends (Nat.le_of_eq hblockSize.symm)
        simp only
        omega
      | legacy =>
        simpa only [hf] using hroom
    have hread := hw.parse_eq_ok hversion hkeyLength hlong husable hfits
    exact ⟨Except.ok.inj (hp.symm.trans hread), husable, hfits⟩
  · rintro ⟨rfl, husable, hfits⟩
    exact hw.parse_eq_ok hversion hkeyLength hlong husable hfits

end Whole

/-! ## Headers that lose nothing -/

/-- The headers that new files can have: of a version that is written, with keys and blocks that a
tree can be made of, and with a text name that there is room for. -/
structure Regular (h : Header) : Prop where
  version : 7 ≤ h.version ∧ h.version ≤ 10
  keyLength : 1 ≤ h.keyLength ∧ h.keyLength ≤ maxKeyLength
  blockSize : max minHeaderBytes h.layout.minBlockSize ≤ h.blockSize ∧ h.blockSize ≤ maxBlockSize
  fixedRecordLength : ∀ n ∈ h.fixedRecordLength, n ≤ 99999
  textName : (Bytes.ofText h.textName).length ≤ h.nameRoom
  /-- Blanks behind a legacy name are not told from the ones that pad it. -/
  trimmed : h.format = .legacy → (Bytes.ofText h.textName).getLast? ≠ some blank

/-- Nothing is lost of such a header. -/
theorem Regular.reread_eq (hr : h.Regular) : h.reread = h := by
  have hblockSize : h.blockSize % 10 ^ 5 = h.blockSize :=
    Nat.mod_eq_of_lt (Nat.lt_of_le_of_lt hr.blockSize.2 (by decide))
  have hrecordLength : h.fixedRecordLength.map (· % 10 ^ 5) = h.fixedRecordLength := by
    have hsmall := hr.fixedRecordLength
    cases hn : h.fixedRecordLength with
    | none => rfl
    | some n => exact congrArg some (Nat.mod_eq_of_lt (Nat.lt_succ_of_le (hsmall n hn)))
  have hname : h.reread.textName = h.textName := by
    have htrimmed := hr.trimmed
    unfold reread
    cases hf : h.format with
    | modern => rfl
    | legacy => exact Bytes.trimmed_eq_self (htrimmed hf)
  unfold reread at hname ⊢
  rw [hblockSize, hrecordLength]
  exact congrArg (fun name => { h with textName := name }) hname

theorem Regular.encode_eq_ok (hr : h.Regular) :
    ∃ image, h.encode = .ok image ∧ parse image = .ok h := by
  have hmin : minHeaderBytes ≤ h.blockSize := Nat.le_trans (Nat.le_max_left _ _) hr.blockSize.1
  have hfrontSize : h.frontSize ≤ h.blockSize := by
    refine Nat.le_trans ?_ hmin
    unfold frontSize
    cases h.format <;> decide
  have hlength : h.blockSize ≤ Bytes.maxLength := Nat.le_trans hr.blockSize.2 (by decide)
  have husable : usable h.layout = true := by
    have hsize := hr.blockSize
    simp only [usable, Bool.and_eq_true, decide_eq_true_eq]
    show (minHeaderBytes ≤ h.blockSize ∧ h.blockSize ≤ maxBlockSize) ∧
      h.layout.minBlockSize ≤ h.blockSize
    omega
  have hwritable : h.Writable := ⟨hr.keyLength, hr.textName⟩
  obtain ⟨image, hencode, hfront⟩ := hwritable.encode_eq_ok ⟨hfrontSize, hlength⟩
  have hparse := hfront.written.parse_eq_ok hr.version hr.keyLength (hfront.length ▸ hmin)
    (hr.reread_eq.symm ▸ husable) (hr.reread_eq.symm ▸ hr.textName)
  rw [hr.reread_eq] at hparse
  exact ⟨image, hencode, hparse⟩

/-- A header is written into a block of its size with null pointers. Any others that a file can have
are written there in their place and read back, and the header is read back before that and
after. -/
theorem Regular.parse_encode (hr : h.Regular) :
    ∃ image, h.encode = .ok image ∧ image.length = h.blockSize ∧
      Pointers.read h.format image = {} ∧ parse image = .ok h ∧
      ∀ p : Pointers, (∀ pos ∈ p.fields, pos.offset ≤ h.format.maxPosition) →
        ∃ new, Pointers.write h.format p image = (new, .ok ()) ∧ new.length = h.blockSize ∧
          Pointers.read h.format new = p ∧ parse new = .ok h := by
  obtain ⟨image, hencode, hparse⟩ := hr.encode_eq_ok
  obtain ⟨hlength, hlong, hfronts⟩ := fronts_of_encode hencode
  refine ⟨image, hencode, hlength, hfronts.pointers, hparse, fun p hp => ?_⟩
  have hpointers := pointers_le h.format
  obtain ⟨new, hwrite, hread, -, -, hnew⟩ :=
    @Pointers.write_eq_ok h.format p image hp (Nat.le_trans hpointers (Nat.le_trans (by decide) hlong))
  exact ⟨new, hwrite, hnew.trans hlength, hread, parse_write hparse hwrite hp⟩

/-- A legacy file with the largest record length, and with a name that is not all ASCII. -/
def sample : Header where
  version := 7
  blockSize := 1024
  keyLength := 137
  duplicates := true
  fixedRecordLength := some 99999
  textName := "Größe.dat"
  textRelative := true

theorem Regular.parse_encode_sample :
    let p : Pointers := ⟨.null, ⟨1024⟩, ⟨999999999⟩, ⟨2048⟩⟩
    sample.Regular ∧ ∃ image new, sample.encode = .ok image ∧ image.length = 1024 ∧
      Pointers.write .legacy p image = (new, .ok ()) ∧ Pointers.read .legacy new = p ∧
      parse new = .ok sample := by
  intro p
  have hr : sample.Regular :=
    ⟨by decide, by decide, by decide, by decide, by decide +kernel, by decide +kernel⟩
  obtain ⟨image, hencode, hlength, -, -, hpointers⟩ := hr.parse_encode
  obtain ⟨new, hwrite, -, hread, hparse⟩ := hpointers p (by decide)
  exact ⟨hr, image, new, hencode, hlength, hwrite, hread, hparse⟩

end Header

end PagedIndex
