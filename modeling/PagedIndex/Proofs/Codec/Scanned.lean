import PagedIndex.Proofs.Codec.Bounds
import PagedIndex.Proofs.Codec.Stored

/-!
# Blocks that other programs wrote

Tree blocks are read by offset, and no offset leaves the block. The bytes in front of the end mark
need not be what the engine would write: a shared prefix may be counted too short, and a decimal
position may have anything between its digits. What is read of them is as good as new all the same.
It fits in a block, and it is written in no more bytes than were read and read back from them.

## Main definitions

* `Bytes.fetch`, `Bytes.slice` — accesses that fail outside of the data.
* `Leaf.scan`, `Branch.scan` — tree blocks read by offset, with the number of bytes that were read.
* `Layout.Renews` — what holds of reading a kind of block from any image.

## Main statements

* `Leaf.decode_eq_scan`, `Branch.decode_eq_scan` — blocks are read like this.
* `Layout.renews_of_keyed` — leaves and branches are renewed.
-/

namespace PagedIndex

/-! ## Accesses -/

namespace Bytes

def fetch (b : Bytes) (i : Nat) : Except Error UInt8 :=
  match b[i]? with
  | some x => .ok x
  | none => .error .outOfRange

def slice (b : Bytes) (i j : Nat) : Except Error Bytes :=
  if i ≤ j ∧ j ≤ b.length then .ok ((b.take j).drop i) else .error .outOfRange

variable {b : Bytes} {i j : Nat}

theorem fetch_eq_ok (h : i < b.length) : fetch b i = .ok b[i] := by
  unfold fetch
  rw [List.getElem?_eq_getElem h]

theorem slice_eq_ok (hij : i ≤ j) (hj : j ≤ b.length) : slice b i j = .ok ((b.take j).drop i) :=
  if_pos ⟨hij, hj⟩

/-- A piece that ends in front of `stop` is one of what stands in front of `stop`. -/
theorem slice_add_eq_ok {n stop : Nat} (hn : i + n ≤ stop) (hstop : stop ≤ b.length) :
    slice b i (i + n) = .ok (((b.take stop).drop i).take n) := by
  rw [slice_eq_ok (Nat.le_add_right _ _) (Nat.le_trans hn hstop), List.drop_take, List.drop_take,
    List.take_take, Nat.add_sub_cancel_left, Nat.min_eq_left (by omega)]

end Bytes

variable {l : Layout}

/-- The position at the front of `b`, which has to hold a whole field. -/
def Position.fetch (format : Format) (b : Bytes) : Except Error Nat := do
  let field ← Bytes.slice b 0 format.positionWidth
  return decode format field

theorem Position.fetch_eq_ok {format : Format} {b : Bytes} (h : format.positionWidth ≤ b.length) :
    fetch format b = .ok (decode format b) := by
  unfold fetch
  rw [Bytes.slice_eq_ok (Nat.zero_le _) h, List.drop_zero]
  exact congrArg Except.ok (decode_take (Nat.le_refl _) b)

/-! ## Leaves -/

namespace Entry

variable (l)

/-- Reads an entry from `body` whose key begins with the first `shared` bytes of `start`. -/
def scanBehind (shared : Nat) (start body : Bytes) : Except Error (Entry × Nat) := do
  let rest := l.keyLength - shared
  let needed := rest + l.positionWidth
  if body.length < needed then throw (.corrupt .entryPastEnd)
  let front ← Bytes.slice start 0 shared
  let back ← Bytes.slice body 0 rest
  let field ← Bytes.slice body rest needed
  let record ← Position.fetch l.format field
  return (⟨front ++ back, record⟩, needed)

/-- Reads an entry behind `previous` at the front of `b`, with the number of bytes it takes. -/
def scan (previous : Option Entry) (b : Bytes) : Except Error (Entry × Nat) :=
  match base? l previous with
  | none => scanBehind l 0 [] b
  | some p =>
    match b with
    | [] => .error (.corrupt .entryPastEnd)
    | count :: _ =>
      if count.toNat > l.keyLength then
        .error (.corrupt (.sharedTooLong count.toNat l.keyLength))
      else do
        let body ← Bytes.slice b 1 b.length
        let (e, used) ← scanBehind l count.toNat p.key body
        return (e, used + 1)

variable {l}

theorem scanBehind_eq_decodeAfter (shared : Nat) (start body : Bytes) :
    scanBehind l shared start body = decodeAfter l shared start body := by
  unfold scanBehind decodeAfter
  dsimp only
  by_cases hbody : body.length < l.keyLength - shared + l.positionWidth
  · rw [if_pos hbody, if_pos (by rw [List.length_take]; omega)]
    rfl
  · have hfield : l.format.positionWidth ≤
        ((body.take (l.keyLength - shared + l.positionWidth)).drop (l.keyLength - shared)).length := by
      rw [List.length_drop, List.length_take, Nat.min_eq_left (by omega)]
      exact Nat.le_of_eq (Nat.add_sub_cancel_left _ _).symm
    rw [if_neg hbody, if_neg (by rw [List.length_take]; omega)]
    by_cases hstart : start.length < shared
    · rw [if_pos hstart, Bytes.slice, if_neg (by omega)]
      rfl
    · rw [if_neg hstart, Bytes.slice_eq_ok (Nat.zero_le _) (by omega),
        Bytes.slice_eq_ok (Nat.zero_le _) (by omega),
        Bytes.slice_eq_ok (Nat.le_add_right _ _) (by omega)]
      simp only [bind, Except.bind, Position.fetch_eq_ok hfield, List.drop_zero,
        List.take_take, Nat.min_eq_left (Nat.le_add_right _ _)]
      rfl

/-- An entry is read as it is by offset. -/
theorem decode_eq_scan (previous : Option Entry) (b : Bytes) :
    decode l previous b = scan l previous b := by
  unfold decode scan
  cases base? l previous with
  | none => exact (scanBehind_eq_decodeAfter 0 [] b).symm
  | some p =>
    cases b with
    | nil => rfl
    | cons count body =>
      dsimp only
      split
      · rfl
      · have hslice : Bytes.slice (count :: body) 1 (count :: body).length = .ok body := by
          rw [Bytes.slice_eq_ok (by simp) (Nat.le_refl _), List.take_length]
          rfl
        simp only [hslice, bind, Except.bind, scanBehind_eq_decodeAfter]
        cases decodeAfter l count.toNat p.key body <;> rfl

/-- Every entry takes a byte. -/
theorem pos_of_scan {previous : Option Entry} {b : Bytes} {e : Entry} {used : Nat}
    (h : scan l previous b = .ok (e, used)) : 0 < used := by
  unfold scan at h
  split at h
  · rw [scanBehind_eq_decodeAfter] at h
    have hwidth : 0 < l.positionWidth := Position.positionWidth_pos l.format
    have := (of_decodeAfter h).1
    omega
  · split at h
    · cases h
    · split at h
      · cases h
      · obtain ⟨body, -, h⟩ := of_bind_eq_ok h
        obtain ⟨⟨e', used'⟩, -, h⟩ := of_bind_eq_ok h
        cases h
        exact Nat.succ_pos _

/-- What is read at a byte that is no end mark can be written in its place, if its position can. -/
theorem storable_of_scan {previous : Option Entry} (hkey : 1 ≤ l.keyLength) {b : Bytes} {e : Entry}
    {used : Nat} (h : scan l previous b = .ok (e, used)) (hmark : b.head? ≠ some l.endMark)
    (hrecord : e.record ≤ l.maxRecord) : e.StorableBehind l previous := by
  rw [← decode_eq_scan] at h
  refine ⟨(of_decode h hmark).2.2, fun hbase => ?_, hrecord⟩
  have hnone : decode l none b = .ok (e, used) := by
    have hfirst : base? l none = none := by
      unfold base?
      cases l.format <;> rfl
    unfold decode at h ⊢
    rw [hbase] at h
    rwa [hfirst]
  rw [key_of_decode_none hnone, List.head?_take, if_neg (by omega)]
  exact hmark

end Entry

namespace Leaf

variable (l)

/-- Reads entries from offset `off` on, up to the end mark or to `stop`, with the offset behind
them. -/
def scanFrom (image : Bytes) (stop off : Nat) (previous : Option Entry) :
    Except Error (List Entry × Nat) :=
  if _ : off < stop then
    match image.fetch off with
    | .error e => .error e
    | .ok next =>
      if next = l.endMark then .ok ([], off)
      else
        match image.slice off stop with
        | .error e => .error e
        | .ok b =>
          match _ : Entry.scan l previous b with
          | .error e => .error e
          | .ok (e, used) => do
            let (es, final) ← scanFrom image stop (off + used) (some e)
            return (e :: es, final)
  else
    match l.format with
    | .modern => .ok ([], off)
    | .legacy => .error (.corrupt .leafWithoutEnd)
termination_by stop - off
decreasing_by
  have := Entry.pos_of_scan ‹Entry.scan l previous _ = Except.ok _›
  omega

/-- The entries of a leaf block, with the number of bytes that were read. -/
def scan (image : Bytes) : Except Error (List Entry × Nat) := do
  BlockImage.expect .leaf image
  scanFrom l image (min image.length l.blockSize) 1 none

variable {l} {image : Bytes} {stop off : Nat} {previous : Option Entry}

theorem scanFrom_of_le (h : stop ≤ off) : scanFrom l image stop off previous =
    match l.format with
    | .modern => .ok ([], off)
    | .legacy => .error (.corrupt .leafWithoutEnd) := by
  rw [scanFrom, dif_neg (Nat.not_lt.mpr h)]

theorem scanFrom_of_lt (hoff : off < stop) (hstop : stop ≤ image.length) :
    scanFrom l image stop off previous =
      if image[off] = l.endMark then .ok ([], off)
      else
        match Entry.scan l previous ((image.take stop).drop off) with
        | .error e => .error e
        | .ok (e, used) => do
          let (es, final) ← scanFrom l image stop (off + used) (some e)
          return (e :: es, final) := by
  rw [scanFrom, dif_pos hoff]
  simp only [Bytes.fetch_eq_ok (Nat.lt_of_lt_of_le hoff hstop),
    Bytes.slice_eq_ok (Nat.le_of_lt hoff) hstop]
  split
  · rfl
  · cases hentry : Entry.scan l previous ((image.take stop).drop off) <;> rfl

/-- The entries from an offset on are read as they are by offset. -/
theorem decodeEntries_eq_scanFrom {fuel : Nat} (hstop : stop ≤ image.length)
    (hfuel : stop - off ≤ fuel) :
    decodeEntries l fuel previous ((image.take stop).drop off) =
      (scanFrom l image stop off previous).map Prod.fst := by
  induction fuel generalizing off previous with
  | zero =>
    rw [scanFrom_of_le (by omega), decodeEntries]
    cases l.format <;> rfl
  | succ fuel ih =>
    rcases Nat.lt_or_ge off stop with hoff | hoff
    · have hlt : off < (image.take stop).length := by
        rw [List.length_take, Nat.min_eq_left hstop]
        exact hoff
      have hcut : (image.take stop).drop off = image[off] :: (image.take stop).drop (off + 1) := by
        rw [List.drop_eq_getElem_cons hlt, List.getElem_take]
      rw [scanFrom_of_lt hoff hstop, hcut, decodeEntries, ← hcut, Entry.decode_eq_scan]
      split
      · rfl
      · cases hentry : Entry.scan l previous ((image.take stop).drop off) with
        | error e => rfl
        | ok got =>
          obtain ⟨e, used⟩ := got
          have hpos := Entry.pos_of_scan hentry
          simp only [bind, Except.bind]
          rw [List.drop_drop, ih (by omega)]
          cases scanFrom l image stop (off + used) (some e) <;> rfl
    · rw [scanFrom_of_le hoff, List.drop_eq_nil_of_le (by simp; omega), decodeEntries]
      cases l.format <;> rfl

variable {es : List Entry} {used final : Nat}

/-- A scan ends where it begins, or it finds an entry and goes on behind it. -/
theorem cases_scanFrom (hstop : stop ≤ image.length)
    (h : scanFrom l image stop off previous = .ok (es, final)) :
    (es = [] ∧ final = off) ∨ ∃ e rest used, es = e :: rest ∧ off < stop ∧
      ((image.take stop).drop off).head? ≠ some l.endMark ∧
      Entry.scan l previous ((image.take stop).drop off) = .ok (e, used) ∧
      scanFrom l image stop (off + used) (some e) = .ok (rest, final) := by
  rcases Nat.lt_or_ge off stop with hoff | hoff
  · rw [scanFrom_of_lt hoff hstop] at h
    split at h
    · cases h
      exact .inl ⟨rfl, rfl⟩
    · next hmark =>
      cases hentry : Entry.scan l previous ((image.take stop).drop off) with
      | error e => rw [hentry] at h; cases h
      | ok got =>
        obtain ⟨e, used⟩ := got
        rw [hentry] at h
        obtain ⟨⟨rest, final'⟩, hrest, h⟩ := of_bind_eq_ok h
        cases h
        refine .inr ⟨e, rest, used, rfl, hoff, ?_, rfl, hrest⟩
        rw [List.head?_drop, List.getElem?_take_of_lt hoff,
          List.getElem?_eq_getElem (Nat.lt_of_lt_of_le hoff hstop)]
        exact fun heq => hmark (Option.some.inj heq)
  · rw [scanFrom_of_le hoff] at h
    split at h <;> cases h
    exact .inl ⟨rfl, rfl⟩

/-- A scan does not leave the block. The entries that it finds need no more bytes than it read, and
can be written if their positions can. -/
theorem of_scanFrom (hkey : 1 ≤ l.keyLength) (hstop : stop ≤ image.length)
    (h : scanFrom l image stop off previous = .ok (es, final)) :
    final ≤ max off stop ∧ off + entriesSize l previous es ≤ final ∧
      ((∀ e ∈ es, e.record ≤ l.maxRecord) → Storable l previous es) := by
  induction es generalizing off previous with
  | nil =>
    obtain ⟨-, rfl⟩ | ⟨_, _, _, hes, -⟩ := cases_scanFrom hstop h
    · exact ⟨Nat.le_max_left _ _, Nat.le_refl _, fun _ => trivial⟩
    · cases hes
  | cons e rest ih =>
    obtain ⟨hes, -⟩ | ⟨e', rest', used, hes, hoff, hmark, hentry, hrest⟩ := cases_scanFrom hstop h
    · cases hes
    cases hes
    obtain ⟨hend, hroom, hstorable⟩ := ih hrest
    obtain ⟨hsize, hused, -⟩ := Entry.of_decode ((Entry.decode_eq_scan _ _).trans hentry) hmark
    have hlength : ((image.take stop).drop off).length = stop - off := by
      rw [List.length_drop, List.length_take, Nat.min_eq_left hstop]
    refine ⟨by omega, ?_, fun hrecords => ⟨?_, ?_⟩⟩
    · simp only [entriesSize]
      omega
    · exact Entry.storable_of_scan hkey hentry hmark (hrecords e List.mem_cons_self)
    · exact hstorable fun e' he' => hrecords e' (List.mem_cons_of_mem _ he')

/-- A leaf block is read as it is by offset. -/
theorem decode_eq_scan (image : Bytes) : decode l image = (scan l image).map Prod.fst := by
  have hused : BlockImage.used l image = image.take (min image.length l.blockSize) := by
    rw [BlockImage.used, Bytes.front_eq_take, List.take_eq_take_min, Nat.min_comm]
  unfold decode scan
  cases BlockImage.expect .leaf image with
  | error e => rfl
  | ok =>
    simp only [bind, Except.bind, hused]
    refine decodeEntries_eq_scanFrom (Nat.min_le_left _ _) (Nat.le_of_eq ?_)
    rw [List.length_drop, List.length_take, Nat.min_eq_left (Nat.min_le_left _ _)]

end Leaf

/-! ## Branches -/

namespace Branch

variable (l)

/-- Reads separators from offset `off` on, up to the end mark or to `stop`, with the offset behind
them. -/
def scanFrom (image : Bytes) (stop off : Nat) : Except Error (List (Entry × BlockPos) × Nat) :=
  if _ : off < stop then do
    let next ← image.fetch off
    if next = l.endMark then return ([], off)
    if off + l.separatorSize > stop then throw (.corrupt .branchEntryPastEnd)
    let key ← image.slice off (off + l.keyLength)
    let record ← image.slice (off + l.keyLength) (off + l.entrySize) >>= Position.fetch l.format
    let link ← image.slice (off + l.entrySize) (off + l.separatorSize) >>= Position.fetch l.format
    let (separators, final) ← scanFrom image stop (off + l.separatorSize)
    return ((⟨key, record⟩, ⟨link⟩) :: separators, final)
  else
    match l.format with
    | .modern => .ok ([], off)
    | .legacy => .error (.corrupt .branchWithoutEnd)
termination_by stop - off
decreasing_by
  have : 0 < l.positionWidth := Position.positionWidth_pos l.format
  simp only [Layout.separatorSize]
  omega

/-- The branch a block holds, with the number of bytes that were read. -/
def scan (image : Bytes) : Except Error (Branch × Nat) := do
  BlockImage.expect .branch image
  let stop := min image.length l.blockSize
  if stop < l.branchStart then throw (.corrupt .branchTooShort)
  let first ← image.slice 1 (1 + l.positionWidth) >>= Position.fetch l.format
  let (separators, final) ← scanFrom l image stop l.branchStart
  return (⟨⟨first⟩, separators⟩, final)

variable {l} {image : Bytes} {stop off : Nat}

theorem scanFrom_of_le (h : stop ≤ off) : scanFrom l image stop off =
    match l.format with
    | .modern => .ok ([], off)
    | .legacy => .error (.corrupt .branchWithoutEnd) := by
  rw [scanFrom, dif_neg (Nat.not_lt.mpr h)]

/-- The position at an offset in front of `stop`. -/
theorem fetch_slice_eq_ok {i j : Nat} (hj : j = i + l.positionWidth) (hstop : j ≤ stop)
    (hlength : stop ≤ image.length) :
    (image.slice i j >>= Position.fetch l.format) =
      .ok (Position.decode l.format ((image.take stop).drop i)) := by
  subst hj
  have hwidth : l.format.positionWidth ≤
      (((image.take stop).drop i).take l.positionWidth).length := by
    rw [List.length_take, List.length_drop, List.length_take, Nat.min_eq_left hlength]
    exact Nat.le_min.mpr ⟨Nat.le_refl _, by show l.positionWidth ≤ _; omega⟩
  rw [Bytes.slice_add_eq_ok hstop hlength]
  simp only [bind, Except.bind]
  rw [Position.fetch_eq_ok hwidth, Layout.positionWidth, Position.decode_take (Nat.le_refl _)]

theorem scanFrom_of_lt (hoff : off < stop) (hstop : stop ≤ image.length) :
    scanFrom l image stop off =
      if image[off] = l.endMark then .ok ([], off)
      else if off + l.separatorSize > stop then .error (.corrupt .branchEntryPastEnd)
      else do
        let b := (image.take stop).drop off
        let e : Entry := ⟨b.take l.keyLength, Position.decode l.format (b.drop l.keyLength)⟩
        let link : BlockPos := ⟨Position.decode l.format (b.drop l.entrySize)⟩
        let (separators, final) ← scanFrom l image stop (off + l.separatorSize)
        return ((e, link) :: separators, final) := by
  rw [scanFrom, dif_pos hoff, Bytes.fetch_eq_ok (Nat.lt_of_lt_of_le hoff hstop)]
  simp only [bind, Except.bind]
  split
  · rfl
  · split
    · rfl
    · next hroom =>
      have hentry : l.entrySize = l.keyLength + l.positionWidth := rfl
      have hsize : l.separatorSize = l.entrySize + l.positionWidth := rfl
      have hrecord := @fetch_slice_eq_ok l image stop (off + l.keyLength) (off + l.entrySize)
        (by omega) (by omega) hstop
      have hlink := @fetch_slice_eq_ok l image stop (off + l.entrySize) (off + l.separatorSize)
        (by omega) (by omega) hstop
      simp only [bind, Except.bind] at hrecord hlink
      rw [Bytes.slice_add_eq_ok (by omega) hstop]
      simp only [hrecord, hlink, List.drop_drop]

/-- A separator and its link are read from what stands in front of them in the block. -/
theorem decodeSeparators_cons {fuel : Nat} {next : UInt8} {b : Bytes} (hmark : next ≠ l.endMark)
    (hroom : l.separatorSize ≤ (next :: b).length) :
    decodeSeparators l (fuel + 1) (next :: b) = do
      let rest ← decodeSeparators l fuel ((next :: b).drop l.separatorSize)
      return (⟨(next :: b).take l.keyLength,
        Position.decode l.format ((next :: b).drop l.keyLength)⟩,
          ⟨Position.decode l.format ((next :: b).drop l.entrySize)⟩) :: rest := by
  have hsize : l.separatorSize = l.keyLength + l.format.positionWidth + l.format.positionWidth := rfl
  have hentry : l.entrySize = l.keyLength + l.format.positionWidth := rfl
  have hlength : ¬((next :: b).take l.separatorSize).length < l.separatorSize := by
    rw [List.length_take, Nat.min_eq_left hroom]
    exact Nat.lt_irrefl _
  rw [decodeSeparators, if_neg hmark]
  simp only [if_neg hlength, List.take_take, List.drop_take, List.drop_drop]
  rw [Nat.min_eq_left (by omega), Position.decode_take (by omega), Position.decode_take (by
    show _ ≤ _ - _ - l.format.positionWidth
    omega)]
  rfl

/-- The separators from an offset on are read as they are by offset. -/
theorem decodeSeparators_eq_scanFrom {fuel : Nat} (hstop : stop ≤ image.length)
    (hfuel : stop - off ≤ fuel) :
    decodeSeparators l fuel ((image.take stop).drop off) =
      (scanFrom l image stop off).map Prod.fst := by
  have hwidth : 0 < l.positionWidth := Position.positionWidth_pos l.format
  have hsize : l.separatorSize = l.entrySize + l.positionWidth := rfl
  induction fuel generalizing off with
  | zero =>
    rw [scanFrom_of_le (by omega), decodeSeparators]
    cases l.format <;> rfl
  | succ fuel ih =>
    rcases Nat.lt_or_ge off stop with hoff | hoff
    · have hlength : ((image.take stop).drop off).length = stop - off := by
        rw [List.length_drop, List.length_take, Nat.min_eq_left hstop]
      have hcut : (image.take stop).drop off = image[off] :: (image.take stop).drop (off + 1) := by
        rw [List.drop_eq_getElem_cons (by rw [List.length_take, Nat.min_eq_left hstop]; exact hoff),
          List.getElem_take]
      rw [scanFrom_of_lt hoff hstop]
      split
      · next hmark =>
        rw [hcut, decodeSeparators, if_pos hmark]
        rfl
      next hmark =>
      split
      · next hroom =>
        rw [hcut, decodeSeparators, if_neg hmark, ← hcut]
        dsimp only
        rw [if_pos (by rw [List.length_take, hlength]; omega)]
        rfl
      · next hroom =>
        rw [hcut, decodeSeparators_cons hmark (by rw [← hcut, hlength]; omega), ← hcut, List.drop_drop,
          ih (by omega)]
        simp only [bind, Except.bind]
        cases scanFrom l image stop (off + l.separatorSize) <;> rfl
    · rw [scanFrom_of_le hoff, List.drop_eq_nil_of_le (by simp; omega), decodeSeparators]
      cases l.format <;> rfl

variable {ss : List (Entry × BlockPos)} {final : Nat}

/-- A scan ends where it begins, or it finds a separator and goes on behind it. -/
theorem cases_scanFrom (hstop : stop ≤ image.length)
    (h : scanFrom l image stop off = .ok (ss, final)) :
    (ss = [] ∧ final = off) ∨ ∃ s rest, ss = s :: rest ∧ off + l.separatorSize ≤ stop ∧
      scanFrom l image stop (off + l.separatorSize) = .ok (rest, final) := by
  rcases Nat.lt_or_ge off stop with hoff | hoff
  · rw [scanFrom_of_lt hoff hstop] at h
    split at h
    · cases h
      exact .inl ⟨rfl, rfl⟩
    · split at h
      · cases h
      · next hroom =>
        obtain ⟨⟨rest, final'⟩, hrest, h⟩ := of_bind_eq_ok h
        cases h
        exact .inr ⟨_, rest, rfl, Nat.not_lt.mp hroom, hrest⟩
  · rw [scanFrom_of_le hoff] at h
    split at h <;> cases h
    exact .inl ⟨rfl, rfl⟩

/-- A scan does not leave the block, and it reads as many bytes as the separators take. -/
theorem of_scanFrom (hstop : stop ≤ image.length) (h : scanFrom l image stop off = .ok (ss, final)) :
    final ≤ max off stop ∧ final = off + ss.length * l.separatorSize := by
  induction ss generalizing off with
  | nil =>
    obtain ⟨-, rfl⟩ | ⟨_, _, hss, -⟩ := cases_scanFrom hstop h
    · exact ⟨Nat.le_max_left _ _, by simp⟩
    · cases hss
  | cons s rest ih =>
    obtain ⟨hss, -⟩ | ⟨s', rest', hss, hroom, hrest⟩ := cases_scanFrom hstop h
    · cases hss
    cases hss
    obtain ⟨hend, hfinal⟩ := ih hrest
    refine ⟨by omega, ?_⟩
    rw [hfinal, List.length_cons, Nat.succ_mul]
    omega

/-- A branch block is read as it is by offset. -/
theorem decode_eq_scan (image : Bytes) : decode l image = (scan l image).map Prod.fst := by
  have hstop : min image.length l.blockSize ≤ image.length := Nat.min_le_left _ _
  have hused : BlockImage.used l image = image.take (min image.length l.blockSize) := by
    rw [BlockImage.used, Bytes.front_eq_take, List.take_eq_take_min, Nat.min_comm]
  have hlength : (image.take (min image.length l.blockSize)).length = min image.length l.blockSize := by
    rw [List.length_take, Nat.min_eq_left hstop]
  unfold decode scan
  cases BlockImage.expect .branch image with
  | error e => rfl
  | ok =>
    simp only [bind, Except.bind, hused, Bytes.shorterThan_eq_decide, decide_eq_true_eq, hlength]
    split
    · rfl
    next hroom =>
    have hfirst := @fetch_slice_eq_ok l image _ 1 (1 + l.positionWidth) rfl (Nat.not_lt.mp hroom) hstop
    have hbody := @decodeSeparators_eq_scanFrom l image _ l.branchStart _ hstop (Nat.le_refl _)
    simp only [bind, Except.bind] at hfirst
    simp only [hfirst, List.length_drop, hlength, hbody]
    cases scanFrom l image (min image.length l.blockSize) l.branchStart <;> rfl

end Branch

/-! ## Renewal -/

variable {α : Type}

/-- Blocks of one kind are read by offset, and no image makes an offset leave it. What is read of an
image as long as a block fits in a block in at most as many bytes, and blocks keep it, if its
positions can be written. -/
structure Layout.Renews (l : Layout) (scan : Bytes → Except Error (α × Nat))
    (read : Bytes → Except Error α) (encode : Nat → α → Except Error Bytes) (size : α → Nat)
    (keys : α → List Bytes) (positions : α → List Nat) : Prop where
  read_eq : ∀ image, read image = (scan image).map Prod.fst
  judges : ∀ image, Judges (scan image)
  within : ∀ image a used, scan image = .ok (a, used) →
    used ≤ image.length ∧ ∀ key ∈ keys a, key.length = l.keyLength
  renewed : ∀ image a used, image.length = l.blockSize → scan image = .ok (a, used) →
    (∀ n ∈ positions a, n ≤ l.maxRecord) →
    l.fits (size a) ∧ size a ≤ used ∧ l.Keeps (.replace fun n => encode n a) read a (size a)

/-- What is read of an image is found by offset. -/
theorem Layout.Renews.scan_of_read {scan : Bytes → Except Error (α × Nat)}
    {read : Bytes → Except Error α} {encode : Nat → α → Except Error Bytes} {size : α → Nat}
    {keys : α → List Bytes} {positions : α → List Nat}
    (h : l.Renews scan read encode size keys positions) {image : Bytes} {a : α}
    (hread : read image = .ok a) : ∃ used, scan image = .ok (a, used) := by
  rw [h.read_eq] at hread
  cases hscan : scan image with
  | error e => rw [hscan] at hread; cases hread
  | ok got =>
    rw [hscan] at hread
    cases hread
    exact ⟨got.2, rfl⟩

namespace Leaf

variable {image : Bytes} {es : List Entry} {used : Nat}

/-- What is read of a leaf block, and how many of its bytes that took. -/
theorem of_scan (hkey : 1 ≤ l.keyLength) (h : scan l image = .ok (es, used)) :
    0 < image.length ∧ used ≤ image.length ∧ encodedSize l es ≤ used ∧
      (∀ e ∈ es, e.key.length = l.keyLength) ∧
      ((∀ e ∈ es, e.record ≤ l.maxRecord) → Storable l none es) := by
  obtain ⟨⟨⟩, hexpect, h⟩ := of_bind_eq_ok h
  have hpos : 0 < image.length := by
    cases image with
    | nil => cases hexpect
    | cons => exact Nat.succ_pos _
  have hstop : min image.length l.blockSize ≤ image.length := Nat.min_le_left _ _
  have hread := @decodeEntries_eq_scanFrom l image _ 1 none _ hstop (Nat.le_refl _)
  rw [h] at hread
  obtain ⟨hend, hroom, hstorable⟩ := of_scanFrom hkey hstop h
  exact ⟨hpos, by omega, hroom, (of_decodeEntries hread).2, hstorable⟩

theorem renews (hkey : 1 ≤ l.keyLength) :
    l.Renews (scan l) (decode l) (encode l) (encodedSize l) (·.map Entry.key) (·.map Entry.record) where
  read_eq := decode_eq_scan
  judges image := .of_map (f := Prod.fst) (decode_eq_scan image ▸ judges_decode)
  within image es used h := by
    obtain ⟨-, hused, -, hkeys, -⟩ := of_scan hkey h
    exact ⟨hused, List.forall_mem_map.mpr hkeys⟩
  renewed image es used hlength h hrecords := by
    have hread : decode l image = .ok es := by rw [decode_eq_scan, h]; rfl
    obtain ⟨hpos, -, hroom, -, hstorable⟩ := of_scan hkey h
    exact ⟨(of_decode (hlength ▸ hpos) hread).1, hroom,
      keeps hkey (hstorable (List.forall_mem_map.mp hrecords))⟩

end Leaf

namespace Branch

variable {image : Bytes} {b : Branch} {used : Nat}

/-- The positions of a branch: its links and the records of its separators. -/
def positions (b : Branch) : List Nat :=
  b.children.map BlockPos.offset ++ b.entries.map Entry.record

/-- How many bytes of a branch block were read. -/
theorem of_scan (h : scan l image = .ok (b, used)) :
    used ≤ image.length ∧ used = b.encodedSize l := by
  obtain ⟨⟨⟩, -, h⟩ := of_bind_eq_ok h
  obtain ⟨hroom, h⟩ := Header.of_check_eq_ok h
  obtain ⟨first, -, h⟩ := of_bind_eq_ok h
  obtain ⟨⟨ss, final⟩, hss, h⟩ := of_bind_eq_ok h
  cases h
  obtain ⟨hend, hused⟩ := of_scanFrom (Nat.min_le_left _ _) hss
  exact ⟨by omega, hused⟩

theorem renews (hkey : 1 ≤ l.keyLength) :
    l.Renews (scan l) (decode l) (encode l) (encodedSize l) (·.entries.map Entry.key) positions where
  read_eq := decode_eq_scan
  judges image := .of_map (f := Prod.fst) (decode_eq_scan image ▸ judges_decode)
  within image b used h := by
    have hread : decode l image = .ok b := by rw [decode_eq_scan, h]; rfl
    refine ⟨(of_scan h).1, ?_⟩
    rw [entries, List.map_map]
    exact List.forall_mem_map.mpr (of_decode hread).2
  renewed image b used _ h hpositions := by
    have hread : decode l image = .ok b := by rw [decode_eq_scan, h]; rfl
    obtain ⟨hfits, hkeys⟩ := of_decode hread
    have hheads := head_of_decode hkey hread
    obtain ⟨hoffsets, hrecords⟩ := List.forall_mem_append.mp hpositions
    have hchildren := List.forall_mem_cons.mp (List.forall_mem_map.mp hoffsets)
    have hlinks : ∀ s ∈ b.separators, StorableLink l s := fun s hs =>
      ⟨⟨hkeys s hs, hheads s hs, List.forall_mem_map.mp hrecords _ (List.mem_map_of_mem hs)⟩,
        hchildren.2 _ (List.mem_map_of_mem hs)⟩
    exact ⟨hfits, Nat.le_of_eq (of_scan h).2.symm, keeps hkey hchildren.1 hlinks⟩

end Branch

/-- Leaves and branches are renewed, whatever their bytes are. -/
theorem Layout.renews_of_keyed (hkey : 1 ≤ l.keyLength) :
    l.Renews (Leaf.scan l) (Leaf.decode l) (Leaf.encode l) (Leaf.encodedSize l) (·.map Entry.key)
        (·.map Entry.record) ∧
      l.Renews (Branch.scan l) (Branch.decode l) (Branch.encode l) (Branch.encodedSize l)
        (·.entries.map Entry.key) Branch.positions :=
  ⟨Leaf.renews hkey, Branch.renews hkey⟩

/-- A leaf whose second entry does not make use of the byte it shares with the first, and a branch
whose decimal positions are not only blanks and digits. -/
theorem Layout.renews_small :
    let l : Layout := ⟨2, 40, .modern⟩
    let leaf : Bytes := [0x56, 0x41, 0x42, 0, 0, 0, 0, 0, 1, 0, 0x41, 0x43, 0, 0, 0, 0, 0, 2] ++
      List.replicate 22 filler
    let es : List Entry := [⟨[0x41, 0x42], 1⟩, ⟨[0x41, 0x43], 2⟩]
    let l' : Layout := ⟨2, 40, .legacy⟩
    let branch : Bytes := [0x55, 0x31, 0x78, 0x32, 0, 0, 0, 0, 0, 0x33, 0x41, 0x42, 0x34, 0, 0, 0,
      0, 0, 0,
      0, 0, 0, 0, 0, 0, 0, 0, 0, 0, 0x39] ++ List.replicate 10 endOfRecord
    let b : Branch := ⟨⟨123⟩, [(⟨[0x41, 0x42], 4⟩, ⟨9⟩)]⟩
    1 ≤ l.keyLength ∧ 1 ≤ l'.keyLength ∧
    (∃ used, 17 ≤ used ∧ Leaf.scan l leaf = .ok (es, used)) ∧
    l.Keeps (.replace fun n => Leaf.encode l n es) (Leaf.decode l) es 17 ∧
    (∃ used, 30 ≤ used ∧ Branch.scan l' branch = .ok (b, used)) ∧
    l'.Keeps (.replace fun n => Branch.encode l' n b) (Branch.decode l') b 30 := by
  intro l leaf es l' branch b
  have hl := (Layout.renews_of_keyed (l := l) (by decide)).1
  have hl' := (Layout.renews_of_keyed (l := l') (by decide)).2
  obtain ⟨used, hscan⟩ := hl.scan_of_read (show Leaf.decode l leaf = .ok es from rfl)
  obtain ⟨used', hscan'⟩ := hl'.scan_of_read (show Branch.decode l' branch = .ok b from rfl)
  obtain ⟨-, hle, hkeeps⟩ := hl.renewed leaf es used rfl hscan (by decide)
  obtain ⟨-, hle', hkeeps'⟩ := hl'.renewed branch b used' rfl hscan' (by decide)
  exact ⟨by decide, by decide, ⟨used, hle, hscan⟩, hkeeps, ⟨used', hle', hscan'⟩, hkeeps'⟩

end PagedIndex
