import PagedIndex.Header.Pointers
import PagedIndex.Proofs.Codec.Position

/-!
# Position fields sort as positions

A field is written from its last byte on, behind the field of the higher digits. Of two numbers the
smaller one has the smaller field in front of its last byte, or the same field and a smaller last
byte, so fields of one width stand bytewise in the order of their numbers. A blank sorts before
every digit, which is why leading blanks do no harm.

## Main definitions

* `Bytes.Positional` — a way of writing numbers, one digit behind the other.

## Main statements

* `Position.field_lt_field_iff` — the order of fields.
* `Position.encode_sorts` — what is written of a position, and how it is read and sorted.
-/

namespace PagedIndex

namespace Bytes

variable {b c : Bytes}

/-- What stands behind does not matter for strings of one length that differ. -/
theorem append_lt_append (hlength : b.length = c.length) (h : b < c) (x y : Bytes) :
    b ++ x < c ++ y := by
  induction b generalizing c with
  | nil =>
    have hnil : c = [] := List.eq_nil_of_length_eq_zero hlength.symm
    rw [hnil] at h
    exact absurd h (List.lt_irrefl _)
  | cons d b ih =>
    cases c with
    | nil => simp at hlength
    | cons e c =>
      simp only [List.cons_append, List.cons_lt_cons_iff] at h ⊢
      exact h.imp_right fun ⟨heq, hrest⟩ => ⟨heq, ih (Nat.succ.inj hlength) hrest⟩

/-- Strings are compared by their last bytes if they are the same in front. -/
theorem concat_lt_concat (hlength : b.length = c.length) {d e : UInt8} (h : b < c ∨ b = c ∧ d < e) :
    b ++ [d] < c ++ [e] := by
  rcases h with h | ⟨rfl, h⟩
  · exact append_lt_append hlength h [d] [e]
  · exact List.append_left_lt (List.cons_lt_cons_iff.mpr (.inl h))

/-- Of two numbers the smaller one has the smaller string, if the strings of what is left of them
without their last digits are in order, and the last digits are when nothing else tells the numbers
apart. -/
theorem digits_lt_digits {base width : Nat} {front : Nat → Bytes}
    (hlength : ∀ n, (front n).length = width)
    (hfront : ∀ {n m}, n < m → m < base ^ width → front n < front m) {n m : Nat} {d e : UInt8}
    (hlt : n < m) (hm : m < base ^ (width + 1)) (hlast : n / base = m / base → d < e) :
    front (n / base) ++ [d] < front (m / base) ++ [e] := by
  have hhigher : m / base < base ^ width := by
    apply Nat.div_lt_of_lt_mul
    rwa [← Nat.pow_succ']
  apply concat_lt_concat ((hlength _).trans (hlength _).symm)
  rcases Nat.lt_or_eq_of_le (Nat.div_le_div_right (c := base) (Nat.le_of_lt hlt)) with hless | heq
  · exact .inl (hfront hless hhigher)
  · exact .inr ⟨by rw [heq], hlast heq⟩

/-- A way of writing numbers in fields of any width: `last` is the last digit in `base`, and the
others stand in front of it. -/
structure Positional (base : Nat) (last : Nat → UInt8) (write : Nat → Nat → Bytes) : Prop where
  length : ∀ width n, (write width n).length = width
  succ : ∀ width n, write (width + 1) n = write width (n / base) ++ [last n]
  last_lt : ∀ {n m}, n < m → n / base = m / base → last n < last m

/-- The field of the smaller number is the smaller one. -/
theorem Positional.lt_of_lt {base : Nat} {last : Nat → UInt8} {write : Nat → Nat → Bytes}
    (h : Positional base last write) {width n m : Nat} (hlt : n < m) (hm : m < base ^ width) :
    write width n < write width m := by
  induction width generalizing n m with
  | zero =>
    rw [Nat.pow_zero] at hm
    omega
  | succ width ih =>
    rw [h.succ, h.succ]
    exact digits_lt_digits (h.length width) ih hlt hm (h.last_lt hlt)

end Bytes

namespace Decimal

theorem digit_lt_digit {d e : Nat} (he : e < 10) (h : d < e) : digit d < digit e := by
  revert d
  revert e
  decide

theorem blank_lt_digit {d : Nat} (hd : d < 10) : blank < digit d := by
  revert d
  decide

theorem leading_zero (width : Nat) : leading width 0 = List.replicate width blank := by
  cases width with
  | zero => rfl
  | succ width => rw [leading, if_pos rfl]

theorem positional_leading :
    Bytes.Positional 10 (fun n => if n = 0 then blank else digit (n % 10)) leading where
  length := length_leading
  succ width n := by
    by_cases hn : n = 0
    · subst hn
      rw [leading_zero, Nat.zero_div, leading_zero, if_pos rfl, List.replicate_succ']
    · rw [leading, if_neg hn, if_neg hn]
  last_lt := by
    intro n m hlt hhigher
    have hm : m % 10 < 10 := Nat.mod_lt m (by decide)
    rw [if_neg (by omega : m ≠ 0)]
    split
    · exact blank_lt_digit hm
    · exact digit_lt_digit hm (by omega)

/-- The number in a field may be 0, which is written with a digit all the same. -/
theorem field_lt_field {width n m : Nat} (hlt : n < m) (hm : m < 10 ^ width) :
    field width n < field width m := by
  cases width with
  | zero =>
    rw [Nat.pow_zero] at hm
    omega
  | succ width =>
    refine Bytes.digits_lt_digits (length_leading width) positional_leading.lt_of_lt hlt hm
      fun heq => ?_
    exact digit_lt_digit (Nat.mod_lt m (by decide)) (by omega)

end Decimal

namespace Position

theorem positional_bigEndian : Bytes.Positional 256 (fun n => UInt8.ofNat (n % 256)) bigEndian where
  length := length_bigEndian
  succ _ _ := rfl
  last_lt := by
    intro n m hlt hhigher
    rw [UInt8.lt_iff_toNat_lt]
    simp only [UInt8.toNat_ofNat']
    omega

variable {format : Format} {n m : Nat}

theorem field_lt_field (hlt : n < m) (hm : m ≤ format.maxPosition) :
    field format n < field format m := by
  cases format with
  | modern =>
    have hbound : m < 256 ^ 6 := Nat.lt_of_le_of_lt hm (by decide)
    exact positional_bigEndian.lt_of_lt hlt hbound
  | legacy =>
    have hbound : m < 10 ^ 9 := Nat.lt_of_le_of_lt hm (by decide)
    exact Decimal.field_lt_field hlt hbound

/-- Positions that a format can hold are sorted by their fields. -/
theorem field_lt_field_iff (hn : n ≤ format.maxPosition) (hm : m ≤ format.maxPosition) :
    field format n < field format m ↔ n < m := by
  refine ⟨fun h => ?_, fun h => field_lt_field h hm⟩
  rcases Nat.lt_trichotomy n m with hlt | rfl | hgt
  · exact hlt
  · exact absurd h (List.lt_irrefl _)
  · exact absurd h (List.lt_asymm (field_lt_field hgt hn))

theorem encode_eq_error_iff {e : Error} : encode format n = .error e ↔
    format.maxPosition < n ∧ e = .invalidKey (.positionTooLarge n format) := by
  unfold encode
  split
  · next hn => simp [eq_comm, Nat.lt_of_not_le (Nat.not_le_of_gt hn)]
  · next hn => simp [hn]

/-- A position is written if its format can hold it, and nothing is changed otherwise. What is
written has the width of a field, is read back whatever stands behind it, cannot be taken for the
end of the entries, and sorts as the position does. -/
theorem encode_sorts (format : Format) (v w : Nat) :
    ((∃ b, encode format v = .ok b) ↔ v ≤ format.maxPosition) ∧
    (∀ e, encode format v = .error e → e = .invalidKey (.positionTooLarge v format) ∧
      ∀ offset image, Pointers.writeFields format [(offset, ⟨v⟩)] image = (image, .error e)) ∧
    ∀ b, encode format v = .ok b →
      (b.length = format.positionWidth ∧ ∀ offset image,
        Pointers.writeFields format [(offset, ⟨v⟩)] image = (Bytes.patch image offset b, .ok ())) ∧
      (∀ rest, decode format (b ++ rest) = v) ∧
      (∃ first, b.head? = some first ∧ first ≠ format.endMark) ∧
      ∀ c, encode format w = .ok c → (b < c ↔ v < w) := by
  refine ⟨⟨?_, ?_⟩, fun e he => ⟨(encode_eq_error_iff.mp he).2, fun offset image => ?_⟩, fun b hb => ?_⟩
  · rintro ⟨b, hb⟩
    exact (encode_eq_ok_iff.mp hb).1
  · exact fun hv => ⟨field format v, encode_eq_ok hv⟩
  · simp only [Pointers.writeFields, he]
  · obtain ⟨hv, rfl⟩ := encode_eq_ok_iff.mp hb
    refine ⟨⟨length_field format v, fun offset image => ?_⟩, decode_field hv, head?_field hv, ?_⟩
    · simp only [Pointers.writeFields, hb]
    · intro c hc
      obtain ⟨hw, rfl⟩ := encode_eq_ok_iff.mp hc
      exact field_lt_field_iff hv hw

/-- The last position of nine digits sorts behind one of four, and the next one is not written. -/
theorem encode_sorts_digits : ∃ b c,
    encode .legacy 1024 = .ok b ∧ encode .legacy 999999999 = .ok c ∧ b < c ∧
    decode .legacy b = 1024 ∧ b.head? = some blank ∧
    ∀ image, Pointers.writeFields .legacy [(1, ⟨1000000000⟩)] image =
      (image, .error (.invalidKey (.positionTooLarge 1000000000 .legacy))) := by
  obtain ⟨hwritten, -, hb⟩ := encode_sorts .legacy 1024 999999999
  obtain ⟨b, hencode⟩ := hwritten.mpr (by decide)
  obtain ⟨-, hdecode, -, hsorts⟩ := hb b hencode
  have hlast : encode .legacy 999999999 = .ok (field .legacy 999999999) := encode_eq_ok (by decide)
  refine ⟨b, _, hencode, hlast, (hsorts _ hlast).mpr (by decide), ?_, ?_, fun image => ?_⟩
  · have h := hdecode []
    rwa [List.append_nil] at h
  · obtain ⟨-, rfl⟩ := encode_eq_ok_iff.mp hencode
    decide
  · exact ((encode_sorts .legacy 1000000000 0).2.1 _ (encode_eq_error_iff.mpr ⟨by decide, rfl⟩)).2 1
      image

end Position

end PagedIndex
