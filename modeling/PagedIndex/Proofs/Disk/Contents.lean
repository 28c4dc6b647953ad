import PagedIndex.Disk.Contents

/-!
# Contents as strings of bytes

Pages are a way to store bytes by their offsets: reading gives the bytes of a range, and writing
changes the bytes of a range and no others.

## Main definitions

* `Contents.byte` — the byte at an offset.

## Main statements

* `Contents.read_eq_map` — what is read are the bytes from the offset on, up to the end.
* `Contents.byte_write` — what is written are the bytes of a range.
-/

namespace PagedIndex

namespace Contents

/-- The byte at an offset, 0 where nothing was written. -/
def byte (c : Contents) (i : Nat) : UInt8 := (c.page (i / pageSize)).bytes.getD (i % pageSize) 0

theorem pageSize_pos : 0 < pageSize := by decide

/-- An offset in a run of pages, by page and offset in the page. -/
theorem div_mod_page (first j : Nat) :
    (first * pageSize + j) / pageSize = first + j / pageSize ∧
      (first * pageSize + j) % pageSize = j % pageSize := by
  rw [Nat.add_comm, Nat.add_mul_div_right _ _ pageSize_pos, Nat.add_mul_mod_self_right]
  exact ⟨Nat.add_comm _ _, rfl⟩

theorem length_span (c : Contents) (first count : Nat) :
    (c.span first count).length = count * pageSize := by
  rw [span_eq_flatMap]
  induction count generalizing first with
  | zero => simp
  | succ count ih =>
    rw [List.range'_succ, List.flatMap_cons, List.length_append, ih, Page.length_bytes,
      Nat.add_mul]
    omega

theorem getElem?_span (c : Contents) (first count : Nat) {j : Nat} (h : j < count * pageSize) :
    (c.span first count)[j]? = some (c.byte (first * pageSize + j)) := by
  rw [span_eq_flatMap]
  induction count generalizing first j with
  | zero => omega
  | succ count ih =>
    have hlen : (c.page first).bytes.length = pageSize := Page.length_bytes _
    rw [List.range'_succ, List.flatMap_cons]
    rcases Nat.lt_or_ge j pageSize with hj | hj
    · have := div_mod_page first j
      rw [List.getElem?_append_left (by omega), byte, this.1, this.2, Nat.div_eq_of_lt hj,
        Nat.mod_eq_of_lt hj, Nat.add_zero, List.getD_eq_getElem?_getD,
        List.getElem?_eq_getElem (by omega), Option.getD_some]
    · have hrest : j - pageSize < count * pageSize := by
        rw [Nat.add_mul, Nat.one_mul] at h
        omega
      have hoffset : (first + 1) * pageSize + (j - pageSize) = first * pageSize + j := by
        rw [Nat.add_mul, Nat.one_mul]
        omega
      rw [List.getElem?_append_right (by omega), hlen, ih (first + 1) hrest, hoffset]

theorem le_pageCount (offset length : Nat) :
    offset % pageSize + length ≤ pageCount offset length * pageSize := by
  unfold pageCount pageSize
  omega

/-- What is read are the bytes from the offset on, up to the end of the contents. -/
theorem read_eq_map (c : Contents) (offset length : Nat) :
    c.read offset length =
      (List.range' offset (min length (c.size - offset))).map c.byte := by
  unfold read
  simp only [Bytes.front_eq_take]
  generalize min length (c.size - offset) = present
  have hcount := le_pageCount offset present
  have hlen := length_span c (offset / pageSize) (pageCount offset present)
  refine List.ext_getElem? fun j => ?_
  rcases Nat.lt_or_ge j present with hj | hj
  · rw [List.getElem?_take_of_lt hj, List.getElem?_drop, getElem?_span _ _ _ (by omega),
      List.getElem?_map, List.getElem?_range' hj]
    have := Nat.div_add_mod' offset pageSize
    simp only [Option.map_some, Option.some.injEq, Nat.one_mul]
    congr 1
    omega
  · rw [List.getElem?_eq_none (by simp; omega), List.getElem?_eq_none (by simp; omega)]

theorem length_read (c : Contents) (offset length : Nat) :
    (c.read offset length).length = min length (c.size - offset) := by
  simp [read_eq_map]

/-! ## Writing -/

theorem bytes_ofBytes {b : Bytes} (h : b.length = pageSize) : (Page.ofBytes b).bytes = b := by
  simp [Page.ofBytes, h]

theorem getD_putPages (count first : Nat) (image : Bytes) (pages : Std.TreeMap Nat Page) (k : Nat) :
    (putPages count first image pages).getD k .blank =
      if first ≤ k ∧ k < first + count then
        Page.ofBytes ((image.drop ((k - first) * pageSize)).take pageSize)
      else pages.getD k .blank := by
  induction count generalizing first image pages with
  | zero => rw [putPages, if_neg (by omega)]
  | succ count ih =>
    rw [putPages, ih, Bytes.front_eq_take]
    by_cases h0 : k = first
    · have hcmp : compare first k = .eq := by rw [h0, Nat.compare_eq_eq]
      rw [if_neg (by omega), if_pos (by omega), Std.TreeMap.getD_insert, if_pos hcmp, h0,
        Nat.sub_self, Nat.zero_mul, List.drop_zero]
    · have hcmp : compare first k ≠ .eq := by simpa [Nat.compare_eq_eq] using Ne.symm h0
      rw [Std.TreeMap.getD_insert, if_neg hcmp]
      by_cases h1 : first + 1 ≤ k ∧ k < first + 1 + count
      · have hmul : (k - first) * pageSize = pageSize + (k - (first + 1)) * pageSize := by
          rw [show k - first = 1 + (k - (first + 1)) by omega, Nat.add_mul, Nat.one_mul]
        rw [if_pos h1, if_pos (by omega), List.drop_drop, hmul]
      · rw [if_neg h1, if_neg (by omega)]

theorem length_patch {b field : Bytes} {offset : Nat} (h : offset + field.length ≤ b.length) :
    (Bytes.patch b offset field).length = b.length := by
  simp [Bytes.patch]
  omega

theorem getElem?_patch {b field : Bytes} {offset : Nat} (h : offset ≤ b.length) (j : Nat) :
    (Bytes.patch b offset field)[j]? =
      if offset ≤ j ∧ j < offset + field.length then field[j - offset]? else b[j]? := by
  unfold Bytes.patch
  have hlen : (b.take offset).length = offset := by simp; omega
  rw [List.append_assoc]
  rcases Nat.lt_or_ge j offset with hj | hj
  · rw [List.getElem?_append_left (by omega), List.getElem?_take_of_lt hj, if_neg (by omega)]
  · rw [List.getElem?_append_right (by omega), hlen]
    rcases Nat.lt_or_ge j (offset + field.length) with hf | hf
    · rw [List.getElem?_append_left (by omega), if_pos ⟨hj, hf⟩]
    · rw [List.getElem?_append_right (by omega), List.getElem?_drop, if_neg (by omega)]
      congr 1
      omega

/-- What is written are the bytes of a range, and no others. -/
theorem byte_write (c : Contents) (offset : Nat) (data : Bytes) (i : Nat) :
    (c.write offset data).byte i =
      if offset ≤ i ∧ i < offset + data.length then data.getD (i - offset) 0 else c.byte i := by
  have hcount := le_pageCount offset data.length
  generalize hpages : pageCount offset data.length = count at hcount
  have hspan := length_span c (offset / pageSize) count
  have hdiv := Nat.div_add_mod' offset pageSize
  have hidiv := Nat.div_add_mod' i pageSize
  have himod := Nat.mod_lt i pageSize_pos
  generalize himage : Bytes.patch (c.span (offset / pageSize) count) (offset % pageSize) data = image
  have hlen : image.length = count * pageSize := by
    rw [← himage, length_patch (by omega), hspan]
  have hpage : (c.write offset data).page (i / pageSize) =
      if offset / pageSize ≤ i / pageSize ∧ i / pageSize < offset / pageSize + count then
        Page.ofBytes ((image.drop ((i / pageSize - offset / pageSize) * pageSize)).take pageSize)
      else c.page (i / pageSize) := by
    simp only [write, page, hpages, himage]
    exact getD_putPages _ _ _ _ _
  unfold byte
  rw [hpage]
  by_cases hin : offset / pageSize ≤ i / pageSize ∧ i / pageSize < offset / pageSize + count
  · obtain ⟨m, hm⟩ : ∃ m, i / pageSize = offset / pageSize + m :=
      ⟨i / pageSize - offset / pageSize, by omega⟩
    have hmc : (m + 1) * pageSize ≤ count * pageSize := Nat.mul_le_mul_right _ (by omega)
    have hi : i = offset / pageSize * pageSize + (m * pageSize + i % pageSize) := by
      rw [hm, Nat.add_mul] at hidiv
      omega
    rw [if_pos hin, hm, Nat.add_sub_cancel_left, bytes_ofBytes (by
      rw [Nat.add_mul, Nat.one_mul] at hmc; simp; omega)]
    rw [Nat.add_mul, Nat.one_mul] at hmc
    rw [List.getD_eq_getElem?_getD, List.getElem?_take_of_lt himod, List.getElem?_drop, ← himage,
      getElem?_patch (by omega), getElem?_span _ _ _ (by omega), ← hi]
    have hsub : m * pageSize + i % pageSize - offset % pageSize = i - offset := by omega
    by_cases hr : offset ≤ i ∧ i < offset + data.length
    · rw [if_pos hr, if_pos (by omega), List.getD_eq_getElem?_getD, hsub]
    · rw [if_neg hr, if_neg (by omega), Option.getD_some, byte, hm]
  · have hout : ¬(offset ≤ i ∧ i < offset + data.length) := by
      rintro ⟨h1, h2⟩
      refine hin ⟨Nat.div_le_div_right h1, ?_⟩
      have : i / pageSize * pageSize < (offset / pageSize + count) * pageSize := by
        rw [Nat.add_mul]
        omega
      exact Nat.lt_of_mul_lt_mul_right this
    rw [if_neg hin, if_neg hout]

theorem size_write (c : Contents) (offset : Nat) (data : Bytes) :
    (c.write offset data).size = max c.size (offset + data.length) := rfl

/-- Of empty contents no byte is set. -/
theorem byte_empty (i : Nat) : ({} : Contents).byte i = 0 := by
  have hblank : Page.blank.bytes = List.replicate pageSize 0 := by decide +kernel
  show (Page.blank.bytes.getD (i % pageSize) 0) = 0
  rw [hblank, List.getD_eq_getElem?_getD, List.getElem?_replicate]
  split <;> rfl

/-- What was written is read. -/
theorem read_write_self (c : Contents) (offset : Nat) (data : Bytes) :
    (c.write offset data).read offset data.length = data := by
  rw [read_eq_map, size_write]
  refine List.ext_getElem? fun j => ?_
  rcases Nat.lt_or_ge j data.length with hj | hj
  · rw [List.getElem?_map, List.getElem?_range' (by omega), Option.map_some, byte_write,
      if_pos (by omega), List.getElem?_eq_getElem hj, List.getD_eq_getElem?_getD]
    simp [hj]
  · rw [List.getElem?_eq_none (by simp; omega), List.getElem?_eq_none hj]

/-- A range that lies in the contents and apart from what is written reads as before. -/
theorem read_write_of_disjoint {c : Contents} {offset length offset' : Nat} {data : Bytes}
    (hin : offset + length ≤ c.size)
    (hapart : offset + length ≤ offset' ∨ offset' + data.length ≤ offset) :
    (c.write offset' data).read offset length = c.read offset length := by
  rw [read_eq_map, read_eq_map, size_write]
  rw [show min length (max c.size (offset' + data.length) - offset) = length by omega,
    show min length (c.size - offset) = length by omega]
  refine List.map_congr_left fun i hi => ?_
  rw [byte_write, if_neg]
  rw [List.mem_range'_1] at hi
  omega

end Contents

end PagedIndex
