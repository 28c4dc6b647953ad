import Mathlib.Algebra.Group.Nat.Defs
import PagedIndex.Field.Position

/-!
# Position fields can be read back

A position that its format can hold is written in a field of fixed width. The field reads back as
the position, whatever stands behind it, and does not begin with the end mark of the format.

## Main statements

* `Position.decode_field` — reading what was written.
* `Position.head?_field` — the first byte of a field.
-/

namespace PagedIndex

namespace Decimal

theorem value_append_digit (b : Bytes) {d : Nat} (hd : d < 10) :
    value (b ++ [digit d]) = value b * 10 + d := by
  have h : isDigit (digit d) = true ∧ digitValue (digit d) = d := by
    revert d; decide
  simp only [value, List.filter_append, List.filter_cons, h.1, if_pos, List.filter_nil,
    List.foldl_append, List.foldl_cons, List.foldl_nil, h.2]

theorem value_replicate_blank (n : Nat) : value (List.replicate n blank) = 0 := by
  have h : isDigit blank = false := by decide
  simp [value, h]

theorem length_leading (width n : Nat) : (leading width n).length = width := by
  induction width generalizing n with
  | zero => rfl
  | succ width ih =>
    unfold leading
    split
    · simp
    · simp [ih]

/-- The last digit of a number, and those in front of it. -/
theorem mod_pow_succ (width n : Nat) :
    n % 10 ^ (width + 1) = n / 10 % 10 ^ width * 10 + n % 10 := by
  rw [Nat.pow_succ, Nat.mul_comm, Nat.mod_mul]
  omega

theorem value_leading (width n : Nat) : value (leading width n) = n % 10 ^ width := by
  induction width generalizing n with
  | zero => exact (Nat.mod_one n).symm
  | succ width ih =>
    unfold leading
    split
    · next h0 => rw [value_replicate_blank, h0, Nat.zero_mod]
    · rw [value_append_digit _ (Nat.mod_lt _ (by decide)), ih, mod_pow_succ]

theorem length_field (width n : Nat) : (field width n).length = width := by
  cases width with
  | zero => rfl
  | succ width => simp [field, length_leading]

/-- A field keeps the digits that go into it. -/
theorem value_field_eq_mod {width : Nat} (hw : 0 < width) (n : Nat) :
    value (field width n) = n % 10 ^ width := by
  cases width with
  | zero => omega
  | succ width =>
    rw [field, value_append_digit _ (Nat.mod_lt _ (by decide)), value_leading, mod_pow_succ]

theorem value_field {width n : Nat} (hw : 0 < width) (h : n < 10 ^ width) :
    value (field width n) = n := by
  rw [value_field_eq_mod hw, Nat.mod_eq_of_lt h]

theorem mem_leading {width n : Nat} {b : UInt8} (h : b ∈ leading width n) :
    b = blank ∨ ∃ d, d < 10 ∧ b = digit d := by
  induction width generalizing n with
  | zero => simp [leading] at h
  | succ width ih =>
    unfold leading at h
    split at h
    · exact .inl (List.eq_of_mem_replicate h)
    · rcases List.mem_append.mp h with h | h
      · exact ih h
      · exact .inr ⟨n % 10, Nat.mod_lt _ (by decide), by simpa using h⟩

/-- A field holds blanks and digits only. -/
theorem mem_field {width n : Nat} {b : UInt8} (h : b ∈ field width n) :
    b = blank ∨ ∃ d, d < 10 ∧ b = digit d := by
  cases width with
  | zero => simp [field] at h
  | succ width =>
    rcases List.mem_append.mp h with h | h
    · exact mem_leading h
    · exact .inr ⟨n % 10, Nat.mod_lt _ (by decide), by simpa using h⟩

end Decimal

namespace Position

theorem length_bigEndian (width n : Nat) : (bigEndian width n).length = width := by
  induction width generalizing n with
  | zero => rfl
  | succ width ih => simp [bigEndian, ih]

theorem foldl_bigEndian {width n : Nat} (h : n < 256 ^ width) :
    (bigEndian width n).foldl (fun n d => n * 256 + d.toNat) 0 = n := by
  induction width generalizing n with
  | zero =>
    have : n = 0 := by simpa using h
    subst this
    rfl
  | succ width ih =>
    have hn : n / 256 < 256 ^ width := by
      rw [Nat.pow_succ] at h
      omega
    rw [bigEndian, List.foldl_append, ih hn, List.foldl_cons, List.foldl_nil]
    have : (UInt8.ofNat (n % 256)).toNat = n % 256 := by simp
    omega

theorem length_field (format : Format) (n : Nat) :
    (field format n).length = format.positionWidth := by
  cases format
  · exact length_bigEndian 6 n
  · exact Decimal.length_field 9 n

theorem positionWidth_pos (format : Format) : 0 < format.positionWidth := by
  cases format <;> decide

/-- Reading what was written gives the position, whatever stands behind it. -/
theorem decode_field {format : Format} {n : Nat} (h : n ≤ format.maxPosition) (rest : Bytes) :
    decode format (field format n ++ rest) = n := by
  have htake : (field format n ++ rest).take format.positionWidth = field format n :=
    List.take_left' (length_field format n)
  unfold decode
  rw [htake]
  cases format with
  | modern => exact @foldl_bigEndian 6 n (Nat.lt_of_le_of_lt h (by decide))
  | legacy => exact @Decimal.value_field 9 n (by decide) (Nat.lt_of_le_of_lt h (by decide))

theorem encode_eq_ok {format : Format} {n : Nat} (h : n ≤ format.maxPosition) :
    encode format n = .ok (field format n) := by
  rw [encode, if_neg (by omega)]

theorem encode_eq_ok_iff {format : Format} {n : Nat} {b : Bytes} :
    encode format n = .ok b ↔ n ≤ format.maxPosition ∧ b = field format n := by
  unfold encode
  split
  · simp; omega
  · simp only [Except.ok.injEq]
    constructor
    · rintro rfl
      exact ⟨by omega, rfl⟩
    · rintro ⟨-, rfl⟩
      rfl

theorem head?_bigEndian {width n : Nat} (hn : n < 0x80 * 256 ^ width) :
    ∃ b, (bigEndian (width + 1) n).head? = some b ∧ b.toNat < 0x80 := by
  induction width generalizing n with
  | zero =>
    refine ⟨UInt8.ofNat (n % 256), rfl, ?_⟩
    have : (UInt8.ofNat (n % 256)).toNat = n % 256 := by simp
    omega
  | succ width ih =>
    have hn' : n / 256 < 0x80 * 256 ^ width := by
      rw [Nat.pow_succ] at hn
      omega
    obtain ⟨b, hb, hlt⟩ := ih hn'
    refine ⟨b, ?_, hlt⟩
    rw [bigEndian, List.head?_append, hb]
    rfl

/-- A field does not begin with the end mark of its format. -/
theorem head?_field {format : Format} {n : Nat} (h : n ≤ format.maxPosition) :
    ∃ b, (field format n).head? = some b ∧ b ≠ format.endMark := by
  cases format with
  | modern =>
    obtain ⟨b, hb, hlt⟩ := @head?_bigEndian 5 n (Nat.lt_of_le_of_lt h (by decide))
    refine ⟨b, hb, fun he => ?_⟩
    subst he
    revert hlt
    decide
  | legacy =>
    have hlen := length_field .legacy n
    cases hf : field .legacy n with
    | nil => rw [hf] at hlen; simp [Format.positionWidth] at hlen
    | cons b rest =>
      refine ⟨b, rfl, ?_⟩
      have hmem : b ∈ Decimal.field 9 n := by
        have : b ∈ field .legacy n := hf ▸ List.mem_cons_self
        exact this
      rcases Decimal.mem_field hmem with rfl | ⟨d, hd, hb⟩
      · decide
      · have hdigit : ∀ d, d < 10 → Decimal.digit d ≠ Format.legacy.endMark := by decide
        exact hb ▸ hdigit d hd

end Position

end PagedIndex
