import Mathlib.Tactic.DefEqTransformations
import PagedIndex.Proofs.Codec.Parsed
import PagedIndex.Proofs.Codec.Scanned

/-!
# Headers of any bytes

Whatever bytes a file begins with, they are read as a header or found corrupt. No byte is read
outside of them, and no number leaves the words that it is computed in. A header that is read
promises all that a tree is built on: small keys, a version that is known, and blocks that three
entries of any keys fit in.

## Main definitions

* `signed`, `unsigned` — numbers that are computed in words.
* `Header.scan` — reads a header by offset.

## Main statements

* `Header.parse_eq_scan` — headers are read like this.
* `Header.parse_admits` — what holds of every header that is read.
-/

namespace PagedIndex

/-- A number that is computed in signed words of 32 bits. -/
def signed (n : Int) : Except Error Int :=
  if -0x80000000 ≤ n ∧ n < 0x80000000 then .ok n else .error .outOfRange

/-- A number that is kept in unsigned words, which hold the numbers below `bound`. -/
def unsigned (bound : Nat) (n : Int) : Except Error Nat :=
  if 0 ≤ n ∧ n < bound then .ok n.toNat else .error .outOfRange

/-- A computation goes on with what came before it. -/
theorem ok_bind {α β : Type} (a : α) (f : α → Except Error β) : (Except.ok a >>= f) = f a := rfl

theorem signed_eq_ok {n : Int} (hlow : -0x80000000 ≤ n) (hhigh : n < 0x80000000) :
    signed n = .ok n :=
  if_pos ⟨hlow, hhigh⟩

theorem unsigned_eq_ok {bound : Nat} {n : Int} (hlow : 0 ≤ n) (hhigh : n < bound) :
    unsigned bound n = .ok n.toNat :=
  if_pos ⟨hlow, hhigh⟩

namespace Header

/-! ## Reading by offset -/

def scanVersion (data : Bytes) : Except Error Int := do
  let ones ← data.fetch 99
  if ones = blank then return 0
  let tens ← data.fetch 98
  if tens = blank then signed (looseDigit ones)
  else do
    let high ← signed (looseDigit tens * 10)
    signed (looseDigit ones + high)

def scanKeyLength (data : Bytes) : Except Error Int := do
  let ones ← data.fetch 59
  let tens ← data.fetch 58
  if tens = blank then signed (looseDigit ones)
  else if 0x41 ≤ tens ∧ tens ≤ 0x5A then do
    let letter ← unsigned 0x100 ((tens.toNat : Int) - 0x41)
    let high ← signed (letter * 10 + 100)
    signed (looseDigit ones + high)
  else do
    let high ← signed (looseDigit tens * 10)
    signed (looseDigit ones + high)

def scanUsable (l : Layout) : Except Error Bool := do
  let least ← unsigned Decimal.bound l.minBlockSize
  return minHeaderBytes ≤ l.blockSize && l.blockSize ≤ maxBlockSize && least ≤ l.blockSize

/-- The offset behind a legacy name that ends at `stop` or at the blanks in front of it. -/
def nameStop (data : Bytes) : Nat → Except Error Nat
  | 0 => .ok 0
  | stop + 1 =>
    if nameStart < stop + 1 then do
      let last ← data.fetch stop
      if last = blank then nameStop data stop else return stop + 1
    else .ok (stop + 1)

def scanName (l : Layout) (data : Bytes) : Except Error Bytes :=
  match l.format with
  | .modern => do
    let room ← data.slice nameStart (min data.length l.blockSize)
    match room.findIdx? (· == endOfRecord) with
    | some length => data.slice nameStart (nameStart + length)
    | none => .error (.corrupt .unterminatedName)
  | .legacy => do
    let stop ← nameStop data nameEnd
    data.slice nameStart stop

def scan (data : Bytes) : Except Error Header := do
  if data.length < minHeaderBytes then throw (.corrupt (.headerTooShort data.length))
  let number ← scanVersion data
  let kind ← data.fetch 57
  let tag ← data.fetch 0
  let mark ← data.fetch 100
  if tag != BlockKind.header.tag || mark != endOfRecord || !(knownKinds number).contains kind then
    throw (.corrupt .notHeader)
  let version ← unsigned 0x100 (max number 0)
  let fixed ←
    if kind = 0x46 || kind = 0x53 then do
      let field ← data.slice 64 69
      match Decimal.parse? field with
      | some n => pure (some n)
      | none => throw (.corrupt .unreadableRecordLength)
    else pure none
  let field ← data.slice 41 46
  let blockSize ←
    match Decimal.parse? field with
    | some n => pure n
    | none => throw (.corrupt .unreadableBlockSize)
  let keyLength ← scanKeyLength data
  if keyLength < 1 || keyLength > maxKeyLength then
    throw (.corrupt (.keyLengthOutOfRange keyLength))
  let useful ← scanUsable ⟨keyLength.toNat, blockSize, Format.ofVersion version⟩
  if !useful then throw (.corrupt (.unusableBlockSize blockSize keyLength.toNat))
  let name ← scanName ⟨keyLength.toNat, blockSize, Format.ofVersion version⟩ data
  let duplicates ← data.fetch 56
  let relative ← data.fetch 55
  return {
    version := version
    blockSize := blockSize
    keyLength := keyLength.toNat
    duplicates := duplicates == 0x44
    fixedRecordLength := fixed
    textName := Lossy.decode name
    textRelative := relative == 0x54 }

variable {data : Bytes}

theorem fetch_eq_byteAt {i : Nat} (h : i < data.length) : data.fetch i = .ok (byteAt data i) := by
  rw [Bytes.fetch_eq_ok h, byteAt, List.drop_eq_getElem_cons h, List.headD_cons]

theorem looseDigit_bounds (b : UInt8) : -48 ≤ looseDigit b ∧ looseDigit b < 208 := by
  have := b.toNat_lt
  unfold looseDigit
  omega

/-- The version is computed without leaving its word. -/
theorem scanVersion_eq_ok (h : 99 < data.length) : scanVersion data = .ok (readVersion data) := by
  have hones := looseDigit_bounds (byteAt data 99)
  have htens := looseDigit_bounds (byteAt data 98)
  unfold scanVersion readVersion
  simp only [fetch_eq_byteAt h, fetch_eq_byteAt (Nat.lt_of_succ_lt h), ok_bind]
  split
  · rfl
  · split
    · rw [signed_eq_ok (by omega) (by omega), Int.add_zero]
    · rw [signed_eq_ok (n := looseDigit (byteAt data 98) * 10) (by omega) (by omega)]
      exact signed_eq_ok (by omega) (by omega)

/-- So is the key length. -/
theorem scanKeyLength_eq_ok (h : 59 < data.length) :
    scanKeyLength data = .ok (readKeyLength data) := by
  have hones := looseDigit_bounds (byteAt data 59)
  have htens := looseDigit_bounds (byteAt data 58)
  unfold readKeyLength
  dsimp only
  unfold scanKeyLength
  rw [fetch_eq_byteAt h, ok_bind, fetch_eq_byteAt (Nat.lt_of_succ_lt h), ok_bind]
  by_cases hblank : byteAt data 58 = blank
  · rw [if_pos hblank, if_pos hblank, Int.add_zero, signed_eq_ok (by omega) (by omega)]
  by_cases hletter : 0x41 ≤ byteAt data 58 ∧ byteAt data 58 ≤ 0x5A
  · have hlow : 0x41 ≤ (byteAt data 58).toNat := by simpa [UInt8.le_iff_toNat_le] using hletter.1
    have hhigh : (byteAt data 58).toNat ≤ 0x5A := by simpa [UInt8.le_iff_toNat_le] using hletter.2
    have hletters : (0 : Int) ≤ ((byteAt data 58).toNat : Int) - 0x41 := by omega
    have hhundreds := @signed_eq_ok ((((byteAt data 58).toNat : Int) - 0x41) * 10 + 100)
      (by omega) (by omega)
    have hsum := @signed_eq_ok (looseDigit (byteAt data 59) +
      ((((byteAt data 58).toNat : Int) - 0x41) * 10 + 100)) (by omega) (by omega)
    rw [if_neg hblank, if_pos hletter, if_neg hblank, if_pos hletter,
      unsigned_eq_ok hletters (show _ < ((0x100 : Nat) : Int) by omega), ok_bind,
      Int.toNat_of_nonneg hletters, hhundreds, ok_bind, hsum]
  · have htimes := @signed_eq_ok (looseDigit (byteAt data 58) * 10) (by omega) (by omega)
    have hsum := @signed_eq_ok (looseDigit (byteAt data 59) + looseDigit (byteAt data 58) * 10)
      (by omega) (by omega)
    rw [if_neg hblank, if_neg hletter, if_neg hblank, if_neg hletter, htimes, ok_bind, hsum]

/-- And so is the least block size for a key length. -/
theorem scanUsable_eq_ok {l : Layout} (hkey : l.keyLength ≤ maxKeyLength) :
    scanUsable l = .ok (usable l) := by
  have hleast : (l.minBlockSize : Int) < Decimal.bound := by
    have hmax : maxKeyLength = 255 := rfl
    have hbound : Decimal.bound = 0x10000000000000000 := rfl
    have hwidth : l.positionWidth ≤ 9 := by
      unfold Layout.positionWidth
      cases l.format <;> decide
    unfold Layout.minBlockSize Layout.branchStart Layout.separatorSize Layout.entrySize
    omega
  unfold scanUsable
  rw [unsigned_eq_ok (Int.natCast_nonneg _) hleast, ok_bind, Int.toNat_natCast]
  rfl

/-- A legacy name is what is left of its field without the blanks behind it. -/
theorem slice_nameStop {stop : Nat} (hlow : nameStart ≤ stop) (hhigh : stop ≤ data.length) :
    (do let n ← nameStop data stop; data.slice nameStart n) =
      .ok (((data.take stop).drop nameStart).reverse.dropWhile (· == blank)).reverse := by
  induction stop with
  | zero => exact absurd hlow (by decide)
  | succ stop ih =>
    unfold nameStop
    by_cases hstop : nameStart < stop + 1
    · have hcut : (data.take (stop + 1)).drop nameStart =
          (data.take stop).drop nameStart ++ [data[stop]] := by
        rw [List.take_succ_eq_append_getElem (by omega), List.drop_append_of_le_length (by
          rw [List.length_take]; omega)]
      rw [if_pos hstop, Bytes.fetch_eq_ok (by omega)]
      by_cases hblank : data[stop] = blank
      · rw [hcut, List.reverse_append, List.reverse_singleton, List.singleton_append,
          List.dropWhile_cons_of_pos (by simp [hblank])]
        simp only [bind, Except.bind, if_pos hblank]
        exact ih (by omega) (by omega)
      · simp only [bind, Except.bind, if_neg hblank]
        show data.slice nameStart (stop + 1) = _
        rw [Bytes.slice_eq_ok hlow hhigh, hcut, List.reverse_append, List.reverse_singleton,
          List.singleton_append, List.dropWhile_cons_of_neg (by simpa using hblank),
          List.reverse_cons, List.reverse_reverse]
    · have hstart : stop + 1 = nameStart := by omega
      rw [if_neg hstop]
      show data.slice nameStart (stop + 1) = _
      rw [Bytes.slice_eq_ok hlow hhigh, hstart, List.drop_eq_nil_of_le (List.length_take_le _ _)]
      rfl

/-- The text name is read as it is by offset. -/
theorem readName_eq_scanName {l : Layout} (hlength : minHeaderBytes ≤ data.length)
    (hsize : minHeaderBytes ≤ l.blockSize) : readName l data = scanName l data := by
  have hmin : minHeaderBytes = 512 := rfl
  have hstart : nameStart = 101 := rfl
  have hend : nameEnd = 165 := rfl
  unfold readName scanName
  cases l.format with
  | modern =>
    have htake : data.take (min data.length l.blockSize) = data.take l.blockSize := by
      rw [List.take_eq_take_min (i := l.blockSize), Nat.min_comm]
    have hfind : ((data.take l.blockSize).drop nameStart).length =
        min data.length l.blockSize - nameStart := by
      rw [List.length_drop, List.length_take, Nat.min_comm]
    simp only [Bytes.slice_eq_ok (show nameStart ≤ min data.length l.blockSize by omega)
      (Nat.min_le_left _ _), htake, bind, Except.bind]
    generalize hroom : (data.take l.blockSize).drop nameStart = room at hfind
    cases hend : room.findIdx? (· == endOfRecord) with
    | none =>
      have hnone := List.findIdx?_eq_none_iff.mp hend
      rw [if_neg]
      simp only [List.contains_iff_mem]
      exact fun hmem => absurd (hnone _ hmem) (by simp)
    | some n =>
      obtain ⟨hn, hfirst⟩ := List.findIdx?_eq_some_iff_findIdx_eq.mp hend
      have hmem : room.contains endOfRecord = true := by
        obtain ⟨b, hb, hmark⟩ := List.findIdx_lt_length.mp (hfirst ▸ hn)
        rw [List.contains_iff_mem]
        rwa [beq_iff_eq.mp hmark] at hb
      have hslice := @Bytes.slice_add_eq_ok data nameStart n (min data.length l.blockSize) (by omega)
        (Nat.min_le_left _ _)
      rw [htake, hroom] at hslice
      simp only [if_pos hmem, hslice, List.takeWhile_eq_take_findIdx_not, bne, Bool.not_not, hfirst]
  | legacy => exact (slice_nameStop (by omega) (by omega)).symm

section Checks

variable {α β : Type} {c c' : Prop} [Decidable c] [Decidable c']

/-- A check of the same thing, with the same in front of it and behind it. -/
theorem check_congr {e : Error} {f f' : PUnit → Except Error α} (hc : c ↔ c')
    (hf : ¬c → f ⟨⟩ = f' ⟨⟩) :
    (if c then throw e >>= f else f ⟨⟩) = if c' then throw e >>= f' else f' ⟨⟩ := by
  by_cases h : c
  · rw [if_pos h, if_pos (hc.mp h)]
    rfl
  · rw [if_neg h, if_neg fun h' => h (hc.mpr h')]
    exact hf h

/-- A number in a field of five digits. -/
theorem number_congr {i j : Nat} {e : Error} {g : Nat → β} {f f' : β → Except Error α}
    (hfield : data.slice i j = .ok ((data.drop i).take 5)) (hf : ∀ b, f b = f' b) :
    (match Decimal.parse? ((data.drop i).take 5) with
      | some n => pure (g n) >>= f
      | none => throw e >>= f) =
    (data.slice i j >>= fun field =>
      match Decimal.parse? field with
      | some n => pure (g n) >>= f'
      | none => throw e >>= f') := by
  rw [hfield, ok_bind]
  cases Decimal.parse? ((data.drop i).take 5) with
  | some n => exact hf (g n)
  | none => rfl

/-- A number that is there in some files only. -/
theorem choice_congr {i j : Nat} {e : Error} {g : Nat → β} {b : β} {f f' : β → Except Error α}
    (hfield : data.slice i j = .ok ((data.drop i).take 5)) (hf : ∀ b, f b = f' b) :
    (if c then
      match Decimal.parse? ((data.drop i).take 5) with
      | some n => pure (g n) >>= f
      | none => throw e >>= f
    else pure b >>= f) =
    if c then
      data.slice i j >>= fun field =>
        match Decimal.parse? field with
        | some n => pure (g n) >>= f'
        | none => throw e >>= f'
    else pure b >>= f' := by
  by_cases h : c
  · rw [if_pos h, if_pos h]
    exact number_congr hfield hf
  · rw [if_neg h, if_neg h]
    exact hf b

end Checks

/-- Headers are read as they are by offset. -/
theorem parse_eq_scan (data : Bytes) : parse data = scan data := by
  have hmin : minHeaderBytes = 512 := rfl
  unfold parse scan
  refine check_congr Iff.rfl fun hshort => ?_
  have hbyte : ∀ i < 512, data.fetch i = .ok (byteAt data i) := fun i hi =>
    fetch_eq_byteAt (by omega)
  have hfield : ∀ i < 507, data.slice i (i + 5) = .ok ((data.drop i).take 5) := fun i hi => by
    rw [Bytes.slice_add_eq_ok (show i + 5 ≤ data.length by omega) (Nat.le_refl _), List.take_length]
  rw [scanVersion_eq_ok (by omega), ok_bind, hbyte 57 (by decide), ok_bind, hbyte 0 (by decide),
    ok_bind,
    hbyte 100 (by decide), ok_bind]
  refine check_congr Iff.rfl fun hknown => ?_
  have hversion : unsigned 0x100 (max (readVersion data) 0) = .ok (readVersion data).toNat := by
    simp only [Bool.or_eq_true, not_or, Bool.not_eq_true', Bool.not_eq_false,
      List.contains_iff_mem] at hknown
    have hle := le_of_knownKinds hknown.2
    rw [unsigned_eq_ok (by omega) (by omega)]
    congr 1
    omega
  rw [hversion, ok_bind]
  refine choice_congr (hfield 64 (by decide)) fun fixed => ?_
  refine number_congr (hfield 41 (by decide)) fun blockSize => ?_
  beta_reduce
  rw [scanKeyLength_eq_ok (by omega), ok_bind]
  refine check_congr Iff.rfl fun hrange => ?_
  beta_reduce
  have hkey : (readKeyLength data).toNat ≤ maxKeyLength := by
    simp only [Bool.or_eq_true, decide_eq_true_eq, not_or] at hrange
    omega
  rw [scanUsable_eq_ok hkey, ok_bind]
  refine check_congr Iff.rfl fun husable => ?_
  beta_reduce
  have hsize : minHeaderBytes ≤ blockSize := by
    simp only [usable, Bool.not_eq_true', Bool.not_eq_false, Bool.and_eq_true,
      decide_eq_true_eq] at husable
    exact husable.1.1
  rw [← readName_eq_scanName (Nat.not_lt.mp hshort) hsize, hbyte 56 (by decide), hbyte 55 (by decide)]
  rfl

/-! ## What is read of any bytes -/

section Judged

variable {α β : Type} {c : Prop} [Decidable c]

theorem judges_check {d : Corruption} {f : PUnit → Except Error α} (hf : Judges (f ⟨⟩)) :
    Judges (if c then throw (.corrupt d) >>= f else f ⟨⟩) := by
  split
  · exact .corrupt
  · exact hf

theorem judges_number {field : Bytes} {d : Corruption} {g : Nat → β} {f : β → Except Error α}
    (hf : ∀ b, Judges (f b)) :
    Judges (match Decimal.parse? field with
      | some n => pure (g n) >>= f
      | none => throw (.corrupt d) >>= f) := by
  split
  · exact hf _
  · exact .corrupt

theorem judges_choice {field : Bytes} {d : Corruption} {g : Nat → β} {b : β} {f : β → Except Error α}
    (hf : ∀ b, Judges (f b)) :
    Judges (if c then
        match Decimal.parse? field with
        | some n => pure (g n) >>= f
        | none => throw (.corrupt d) >>= f
      else pure b >>= f) := by
  split
  · exact judges_number hf
  · exact hf b

end Judged

theorem judges_readName (l : Layout) (data : Bytes) : Judges (readName l data) := by
  unfold readName
  split
  · dsimp only
    split
    · exact .ok
    · exact .corrupt
  · exact .ok

theorem judges_parse (data : Bytes) : Judges (parse data) := by
  unfold parse
  refine judges_check (judges_check (judges_choice fun fixed => judges_number fun blockSize => ?_))
  exact judges_check (judges_check ((judges_readName _ data).bind fun name _ => .ok))

/-- Any bytes are read as a header without leaving them, or found corrupt. A header that is read has
a version, keys and blocks of the sizes that are known, and three entries of any keys fit in a
block. -/
theorem parse_admits (data : Bytes) :
    parse data = scan data ∧ Judges (scan data) ∧ ∀ h, scan data = .ok h →
      h.version ≤ 10 ∧ (1 ≤ h.keyLength ∧ h.keyLength ≤ 255) ∧
      (512 ≤ h.blockSize ∧ h.blockSize ≤ 0xFF00) ∧
      (∀ b : Branch, b.separators.length ≤ 3 → b.fits h.layout) ∧
      ∀ es : List Entry, es.length ≤ 3 → Leaf.fits h.layout es := by
  have heq := parse_eq_scan data
  refine ⟨heq, heq ▸ judges_parse data, fun h hscan => ?_⟩
  have hchecked := checked_of_parse (heq.trans hscan)
  have husable := hchecked.usable
  simp only [usable, Bool.and_eq_true, decide_eq_true_eq] at husable
  have hroomy : h.layout.Roomy := ⟨hchecked.keyLength.1, husable.2⟩
  exact ⟨hchecked.version, hchecked.keyLength, husable.1, fun b hb => Branch.fits_of_le_three hroomy hb,
    fun es hes => Leaf.fits_of_le_three hroomy hes⟩

/-- A legacy header whose key length has a letter is accepted, and three leaf entries fit whatever
they are. -/
theorem parse_admits_sample : ∃ data : Bytes, scan data = .ok sample ∧
    ∀ a b c : Entry, Leaf.fits sample.layout [a, b, c] := by
  have hr : sample.Regular :=
    ⟨by decide, by decide, by decide, by decide, by decide +kernel, by decide +kernel⟩
  obtain ⟨data, -, hparse⟩ := hr.encode_eq_ok
  obtain ⟨heq, -, hadmits⟩ := parse_admits data
  have hscan := heq.symm.trans hparse
  obtain ⟨-, -, -, -, hleaf⟩ := hadmits sample hscan
  exact ⟨data, hscan, fun a b c => hleaf [a, b, c] (Nat.le_refl 3)⟩

end Header

end PagedIndex
