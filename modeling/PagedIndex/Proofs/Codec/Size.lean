import PagedIndex.Block.Node

/-!
# How much room entries take

The written form of the entries of a leaf gets no longer when entries are left out, although each
entry is compressed against the one before it. A leaf that overflows by one more entry splits into
two leaves that fit.

## Main definitions

* `Entry.Storable` — entries that a file can hold.
* `Layout.Roomy` — block geometries that three separators of any keys fit in.
* `Leaf.Splits` — entries that can be made two leaves.

## Main statements

* `Leaf.fits_of_sublist` — leaving out entries keeps a leaf fitting.
* `Leaf.fits_drop_fittingPrefix` — what overflows fits in a leaf of its own.
* `Leaf.splits` — a leaf that one more entry makes overflow can be made two.
-/

namespace PagedIndex

/-- Whether an entry can be written: its key has the key length of the file and does not read as
the end of a block, and its record position is not too large. -/
def Entry.Storable (l : Layout) (e : Entry) : Prop :=
  e.key.length = l.keyLength ∧ e.key.head? ≠ some l.endMark ∧ e.record ≤ l.maxRecord

instance (l : Layout) (e : Entry) : Decidable (e.Storable l) := by
  unfold Entry.Storable; infer_instance

/-- Whether keys are not empty and blocks have room for three separators. -/
def Layout.Roomy (l : Layout) : Prop := 1 ≤ l.keyLength ∧ l.minBlockSize ≤ l.blockSize

instance (l : Layout) : Decidable l.Roomy := by unfold Layout.Roomy; infer_instance

/-- A block with room for three separators has room for the links of every kind of block. -/
theorem Layout.room_of_minBlockSize_le {l : Layout} (hl : l.minBlockSize ≤ l.blockSize) :
    2 + 4 * l.positionWidth ≤ l.blockSize := by
  have hwidth : 1 ≤ l.positionWidth := by unfold positionWidth; cases l.format <;> decide
  unfold minBlockSize branchStart separatorSize entrySize at hl
  omega

namespace Key

theorem commonPrefix_le_left (a b : Bytes) : commonPrefix a b ≤ a.length := by
  fun_induction commonPrefix a b <;> simp_all

theorem commonPrefix_le_right (a b : Bytes) : commonPrefix a b ≤ b.length := by
  fun_induction commonPrefix a b <;> simp_all

theorem take_commonPrefix (a b : Bytes) :
    a.take (commonPrefix a b) = b.take (commonPrefix a b) := by
  fun_induction commonPrefix a b <;> simp_all

/-- Two keys share at least what both share with a third one. -/
theorem min_commonPrefix_le (a b c : Bytes) :
    min (commonPrefix a b) (commonPrefix b c) ≤ commonPrefix a c := by
  induction a generalizing b c with
  | nil => simp [commonPrefix]
  | cons x xs ih =>
    cases b with
    | nil => simp [commonPrefix]
    | cons y ys =>
      cases c with
      | nil => simp [commonPrefix]
      | cons z zs =>
        simp only [commonPrefix]
        split
        · split
          · have := ih ys zs
            split <;> grind
          · simp
        · simp

theorem shared_le_left (a b : Bytes) : shared a b ≤ a.length :=
  Nat.le_trans (Nat.min_le_left _ _) (commonPrefix_le_left a b)

theorem shared_le_right (a b : Bytes) : shared a b ≤ b.length :=
  Nat.le_trans (Nat.min_le_left _ _) (commonPrefix_le_right a b)

theorem shared_le_maxShared (a b : Bytes) : shared a b ≤ maxShared := Nat.min_le_right _ _

theorem min_shared_le (a b c : Bytes) : min (shared a b) (shared b c) ≤ shared a c := by
  have := min_commonPrefix_le a b c
  unfold shared
  omega

theorem take_shared (a b : Bytes) : a.take (shared a b) = b.take (shared a b) := by
  have hle : shared a b ≤ commonPrefix a b := Nat.min_le_left _ _
  have h := congrArg (List.take (shared a b)) (take_commonPrefix a b)
  rwa [List.take_take, List.take_take, Nat.min_eq_left hle] at h

end Key

namespace Entry

variable (l : Layout)

theorem encodedSize_le (previous : Option Entry) (e : Entry) :
    encodedSize l previous e ≤ 1 + l.entrySize := by
  unfold encodedSize
  split <;> omega

theorem encodedSize_none (e : Entry) : encodedSize l none e = l.entrySize := by
  unfold encodedSize base?
  cases l.format <;> rfl

variable {l}

/-- Leaving out an entry costs the next one no more than what the entry took. -/
theorem encodedSize_skip (previous : Option Entry) {e : Entry} (he : e.key.length = l.keyLength)
    (next : Entry) :
    encodedSize l previous next ≤ encodedSize l previous e + encodedSize l (some e) next := by
  unfold encodedSize base?
  cases l.format with
  | legacy => simp
  | modern =>
    cases previous with
    | none => simp
    | some p =>
      have h1 := Key.min_shared_le p.key e.key next.key
      have h2 := Key.shared_le_right p.key e.key
      have h3 := Key.shared_le_left e.key next.key
      have h4 : l.keyLength ≤ l.entrySize := Nat.le_add_right _ _
      simp only
      omega

end Entry

namespace Leaf

variable (l : Layout)

theorem entriesSize_le_of_previous (previous other : Option Entry) (es : List Entry) :
    entriesSize l previous es ≤ 1 + l.entrySize + entriesSize l other es := by
  cases es with
  | nil => simp [entriesSize]
  | cons e rest =>
    have := Entry.encodedSize_le l previous e
    simp only [entriesSize]
    omega

theorem entriesSize_le_length (previous : Option Entry) (es : List Entry) :
    entriesSize l previous es ≤ es.length * (1 + l.entrySize) := by
  induction es generalizing previous with
  | nil => simp [entriesSize]
  | cons e rest ih =>
    have h1 := Entry.encodedSize_le l previous e
    have h2 := ih (some e)
    rw [List.length_cons, Nat.add_mul]
    simp only [entriesSize]
    omega

theorem entriesSize_append (previous : Option Entry) (es fs : List Entry) :
    entriesSize l previous (es ++ fs) =
      entriesSize l previous es + entriesSize l (es.getLast?.or previous) fs := by
  induction es generalizing previous with
  | nil => simp [entriesSize]
  | cons e rest ih =>
    simp only [List.cons_append, entriesSize, ih]
    cases rest with
    | nil => simp [entriesSize]
    | cons e' rest =>
      have : (e' :: rest).getLast?.or (some e) = (e :: e' :: rest).getLast?.or previous := by
        simp [List.getLast?_eq_some_getLast]
      rw [this, Nat.add_assoc]

variable {l}

theorem entriesSize_le_cons (previous : Option Entry) {e : Entry}
    (he : e.key.length = l.keyLength) (es : List Entry) :
    entriesSize l previous es ≤ entriesSize l previous (e :: es) := by
  cases es with
  | nil => simp [entriesSize]
  | cons next rest =>
    have := Entry.encodedSize_skip previous he next
    simp only [entriesSize]
    omega

/-- Entries get no longer when some of them are left out. -/
theorem entriesSize_le_of_sublist (previous : Option Entry) {es fs : List Entry}
    (h : es.Sublist fs) (hf : ∀ e ∈ fs, e.key.length = l.keyLength) :
    entriesSize l previous es ≤ entriesSize l previous fs := by
  induction h generalizing previous with
  | slnil => simp
  | cons e _ ih =>
    exact Nat.le_trans (ih previous fun x hx => hf x (List.mem_cons_of_mem _ hx))
      (entriesSize_le_cons previous (hf e List.mem_cons_self) _)
  | cons_cons e _ ih =>
    have := ih (some e) fun x hx => hf x (List.mem_cons_of_mem _ hx)
    simp only [entriesSize]
    omega

theorem fits_iff {es : List Entry} :
    fits l es ↔ 1 + entriesSize l none es + l.endSize ≤ l.blockSize := by
  unfold fits Layout.fits encodedSize
  exact decide_eq_true_iff

/-- A leaf fits with fewer entries. -/
theorem fits_of_sublist {es fs : List Entry} (h : es.Sublist fs)
    (hf : ∀ e ∈ fs, e.key.length = l.keyLength) (hfits : fits l fs) : fits l es := by
  have := entriesSize_le_of_sublist none h hf
  rw [fits_iff] at *
  omega

theorem endSize_le_one : l.endSize ≤ 1 := by
  unfold Layout.endSize
  cases l.format <;> decide

/-- Three entries fit in a block of the smallest size, whatever their keys. -/
theorem fits_of_short (hl : l.minBlockSize ≤ l.blockSize) {es : List Entry} (h : es.length ≤ 3) :
    fits l es := by
  have hsize := entriesSize_le_length l none es
  have hmul := Nat.mul_le_mul_right (1 + l.entrySize) h
  have hpos : 1 ≤ l.positionWidth := by unfold Layout.positionWidth; cases l.format <;> decide
  have hend := endSize_le_one (l := l)
  unfold Layout.minBlockSize Layout.branchStart Layout.separatorSize at hl
  rw [fits_iff]
  omega

theorem fits_of_le_three (hl : l.Roomy) {es : List Entry} (h : es.length ≤ 3) : fits l es :=
  fits_of_short hl.2 h

/-! ## The fitting prefix -/

theorem fits_take_fittingFrom {used : Nat} (h : l.fits used) (previous : Option Entry)
    (es : List Entry) :
    l.fits (used + entriesSize l previous (es.take (fittingFrom l used previous es))) := by
  fun_induction fittingFrom l used previous es with
  | case1 => simpa [entriesSize] using h
  | case2 used previous e rest used' hfits ih =>
    have := ih hfits
    simpa [entriesSize, Nat.add_assoc, used'] using this
  | case3 => simpa [entriesSize] using h

/-- One entry more than the fitting ones does not fit. -/
theorem not_fits_take_fittingFrom {used : Nat} {previous : Option Entry} {es : List Entry}
    (h : fittingFrom l used previous es < es.length) :
    ¬l.fits (used + entriesSize l previous (es.take (fittingFrom l used previous es + 1))) := by
  fun_induction fittingFrom l used previous es with
  | case1 => simp at h
  | case2 used previous e rest used' hfits ih =>
    have := ih (by simpa using h)
    simpa [entriesSize, Nat.add_assoc, used'] using this
  | case3 used previous e rest used' hfits => simpa [entriesSize, used'] using hfits

section Overflow

variable {front back : List Entry} {e : Entry}

theorem fits_take_fittingPrefix (hl : l.Roomy) (es : List Entry) :
    fits l (es.take (fittingPrefix l es)) := by
  have h0 : l.fits 1 := by
    have : fits l [] := fits_of_le_three hl (by simp)
    simpa [fits, encodedSize, entriesSize] using this
  exact fits_take_fittingFrom h0 none es

theorem fittingPrefix_lt_length (hl : l.Roomy) {es : List Entry} (h : ¬fits l es) :
    fittingPrefix l es < es.length := by
  rcases Nat.lt_or_ge (fittingPrefix l es) es.length with hlt | hge
  · exact hlt
  · have := fits_take_fittingPrefix hl es
    rw [List.take_of_length_le hge] at this
    exact absurd this h

theorem three_le_fittingPrefix (hl : l.Roomy) {es : List Entry} (h : ¬fits l es) :
    3 ≤ fittingPrefix l es := by
  have hlt := fittingPrefix_lt_length hl h
  rcases Nat.lt_or_ge (fittingPrefix l es) 3 with h3 | h3
  · have hshort : fits l (es.take (fittingPrefix l es + 1)) :=
      fits_of_le_three hl (by simp; omega)
    exact absurd hshort (not_fits_take_fittingFrom hlt)
  · exact h3

/-- When one more entry makes a leaf overflow, what is left behind the fitting prefix fits in a leaf
of its own. -/
theorem fits_drop_fittingPrefix (hl : l.Roomy) (hold : fits l (front ++ back))
    (hkeys : ∀ x ∈ front ++ back, x.key.length = l.keyLength)
    (hnew : ¬fits l (front ++ e :: back)) :
    fits l ((front ++ e :: back).drop (fittingPrefix l (front ++ e :: back))) := by
  have hlt := fittingPrefix_lt_length hl hnew
  have hover := not_fits_take_fittingFrom hlt
  generalize hk : fittingPrefix l (front ++ e :: back) = k at *
  rw [show fittingFrom l 1 none (front ++ e :: back) = k from hk] at hover
  rcases Nat.lt_trichotomy k front.length with h | h | h
  · -- The entry behind the prefix is an old one, so the prefix was not the longest.
    have hsub : ((front ++ e :: back).take (k + 1)).Sublist (front ++ back) := by
      rw [List.take_append_of_le_length (by omega)]
      exact (List.take_sublist _ _).trans (List.sublist_append_left _ _)
    exact absurd (fits_of_sublist hsub hkeys hold) hover
  · -- The new entry is the first one that does not fit.
    subst h
    rw [List.drop_left]
    have htake : (front ++ e :: back).take (front.length + 1) = front ++ [e] := by
      rw [List.take_length_add_append]; rfl
    rw [htake, entriesSize_append] at hover
    have h1 : ¬(1 + (entriesSize l none front +
        Entry.encodedSize l (front.getLast?.or none) e) + l.endSize ≤ l.blockSize) := by
      simpa [Layout.fits, entriesSize] using hover
    have h2 : 1 + (entriesSize l none front +
        entriesSize l (front.getLast?.or none) back) + l.endSize ≤ l.blockSize := by
      have := fits_iff.mp hold
      rwa [entriesSize_append] at this
    have h3 := Entry.encodedSize_le l (front.getLast?.or none) e
    have h4 := entriesSize_le_of_previous l (some e) (front.getLast?.or none) back
    have h5 := Entry.encodedSize_none l e
    have h6 := hl.2
    have hpos : 6 ≤ l.positionWidth := by unfold Layout.positionWidth; cases l.format <;> decide
    unfold Layout.minBlockSize Layout.branchStart Layout.separatorSize at h6
    have hend := endSize_le_one (l := l)
    rw [fits_iff]
    simp only [entriesSize]
    omega
  · -- All that overflows was there before.
    refine fits_of_sublist ?_ hkeys hold
    obtain ⟨m, rfl⟩ : ∃ m, k = front.length + (m + 1) := ⟨k - front.length - 1, by omega⟩
    rw [List.drop_append, List.drop_eq_nil_of_le (by omega), Nat.add_sub_cancel_left,
      List.drop_succ_cons, List.nil_append]
    exact (List.drop_sublist _ _).trans (List.sublist_append_right _ _)

/-- Entries that can be made two leaves: three at least fit in the one in front, with or without the
last of them, and the others, one at least, fit in the one behind. -/
structure Splits (l : Layout) (es : List Entry) : Prop where
  three_le : 3 ≤ fittingPrefix l es
  lt_length : fittingPrefix l es < es.length
  kept : fits l (es.take (fittingPrefix l es))
  shortened : fits l (es.take (fittingPrefix l es)).dropLast
  overflow : fits l (es.drop (fittingPrefix l es))

/-- A leaf that one more entry makes overflow can be made two. -/
theorem splits (hl : l.Roomy) (hkeys : ∀ x ∈ front ++ e :: back, x.key.length = l.keyLength)
    (hold : fits l (front ++ back)) (hnew : ¬fits l (front ++ e :: back)) :
    Splits l (front ++ e :: back) := by
  have hkept := fits_take_fittingPrefix hl (front ++ e :: back)
  refine ⟨three_le_fittingPrefix hl hnew, fittingPrefix_lt_length hl hnew, hkept, ?_, ?_⟩
  · exact fits_of_sublist (List.dropLast_sublist _)
      (fun x hx => hkeys x (List.mem_of_mem_take hx)) hkept
  · have hsub : (front ++ back).Sublist (front ++ e :: back) :=
      (List.sublist_cons_self e back).append_left front
    exact fits_drop_fittingPrefix hl hold (fun x hx => hkeys x (hsub.subset hx)) hnew

end Overflow

end Leaf

namespace Branch

variable {l : Layout}

theorem fits_iff {b : Branch} :
    b.fits l ↔ l.branchStart + b.separators.length * l.separatorSize + l.endSize ≤ l.blockSize := by
  unfold fits Layout.fits encodedSize
  exact decide_eq_true_iff

theorem fits_of_length_le {b b' : Branch} (h : b.separators.length ≤ b'.separators.length)
    (hfits : b'.fits l) : b.fits l := by
  have := Nat.mul_le_mul_right l.separatorSize h
  rw [fits_iff] at *
  omega

theorem fits_of_short (hl : l.minBlockSize ≤ l.blockSize) {b : Branch}
    (h : b.separators.length ≤ 3) : b.fits l := by
  have hmul := Nat.mul_le_mul_right l.separatorSize h
  have hend := Leaf.endSize_le_one (l := l)
  unfold Layout.minBlockSize at hl
  rw [fits_iff]
  omega

theorem fits_of_le_three (hl : l.Roomy) {b : Branch} (h : b.separators.length ≤ 3) : b.fits l :=
  fits_of_short hl.2 h

end Branch

end PagedIndex
