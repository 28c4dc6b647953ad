import Mathlib.Data.List.Induction
import PagedIndex.Text.Basic

/-!
# Text can be read back

Text is written as UTF-8, and the bytes of a text read as that text. No character is written with
one of the bytes that are larger than all that a character begins with.

## Main statements

* `Lossy.decode_ofText` — a text is read back from its bytes.
* `Bytes.toNat_lt_of_mem_ofText` — how large the bytes of a text are.
* `Bytes.ofText_trimmed` — a text loses the blanks behind it when its bytes do.
-/

namespace PagedIndex

namespace Bytes

/-- The bytes of a text, character by character. -/
theorem ofText_eq_flatMap (s : String) : ofText s = s.toList.flatMap String.utf8EncodeChar := by
  unfold ofText
  rw [← String.ofList_toList (s := s), String.toUTF8, String.toByteArray_ofList]
  simp [List.utf8Encode]

/-- No byte of a text is larger than the first byte of any character. -/
theorem toNat_lt_of_mem_ofText {s : String} {b : UInt8} (h : b ∈ ofText s) : b.toNat < 0xF8 := by
  rw [ofText_eq_flatMap, List.mem_flatMap] at h
  obtain ⟨c, -, hb⟩ := h
  unfold String.utf8EncodeChar at hb
  dsimp only at hb
  generalize c.val.toNat = v at hb
  split at hb
  · obtain rfl := List.mem_singleton.mp hb
    rw [UInt8.toNat_ofNat']
    omega
  · -- what is written of a longer character is bounded as a number
    have hbound : ∃ n < 0xF8, b = UInt8.ofNat n := by
      split at hb
      · simp only [List.mem_cons, List.not_mem_nil, or_false] at hb
        rcases hb with rfl | rfl
        all_goals exact ⟨_, by omega, rfl⟩
      split at hb
      · simp only [List.mem_cons, List.not_mem_nil, or_false] at hb
        rcases hb with rfl | rfl | rfl
        all_goals exact ⟨_, by omega, rfl⟩
      · simp only [List.mem_cons, List.not_mem_nil, or_false] at hb
        rcases hb with rfl | rfl | rfl | rfl
        all_goals exact ⟨_, by omega, rfl⟩
    obtain ⟨n, hn, rfl⟩ := hbound
    rw [UInt8.toNat_ofNat']
    omega

/-- The last byte of a character is no blank, unless the character is. -/
theorem exists_last_encodeChar {c : Char} (hc : c ≠ ' ') :
    ∃ start b, String.utf8EncodeChar c = start ++ [b] ∧ b ≠ blank := by
  have hblank : ∀ n, n % 256 ≠ 0x20 → UInt8.ofNat n ≠ blank := fun n hn heq => hn <| by
    rw [← UInt8.toNat_ofNat', heq]
    rfl
  have hcode : c.val.toNat ≠ 0x20 := fun h => hc (Char.ext (UInt32.toNat_inj.mp h))
  unfold String.utf8EncodeChar
  dsimp only
  generalize c.val.toNat = v at hcode
  split
  · exact ⟨[], _, rfl, hblank _ (by omega)⟩
  split
  · exact ⟨[_], _, rfl, hblank _ (by omega)⟩
  split
  · exact ⟨[_, _], _, rfl, hblank _ (by omega)⟩
  · exact ⟨[_, _, _], _, rfl, hblank _ (by omega)⟩

/-- A text without the blanks behind it. -/
def trimmed (s : String) : String := String.ofList (s.toList.reverse.dropWhile (· == ' ')).reverse

/-- A text loses the blanks behind it when its bytes do. -/
theorem ofText_trimmed (s : String) :
    ofText (trimmed s) = ((ofText s).reverse.dropWhile (· == blank)).reverse := by
  rw [ofText_eq_flatMap, ofText_eq_flatMap, trimmed, String.toList_ofList]
  induction s.toList using List.reverseRecOn with
  | nil => rfl
  | append_singleton cs c ih =>
    rw [List.reverse_concat, List.flatMap_append, List.flatMap_singleton]
    by_cases hc : c = ' '
    · subst hc
      have hspace : String.utf8EncodeChar ' ' = [blank] := rfl
      rw [List.dropWhile_cons_of_pos (by simp), ih, hspace, List.reverse_concat,
        List.dropWhile_cons_of_pos (by simp)]
    · obtain ⟨start, b, hlast, hb⟩ := exists_last_encodeChar hc
      rw [List.dropWhile_cons_of_neg (by simpa using hc), List.reverse_cons, List.reverse_reverse,
        List.flatMap_append, List.flatMap_singleton, hlast, ← List.append_assoc, List.reverse_concat,
        List.dropWhile_cons_of_neg (by simpa using hb), List.reverse_cons, List.reverse_reverse]

end Bytes

namespace Lossy

variable {b : UInt8} {s : Begun} {rest : Bytes}

theorem begin_two (hlow : 0xC2 ≤ b.toNat) (hhigh : b.toNat ≤ 0xDF) :
    begin b = ([], some ⟨1, b.toNat - 0xC0, 0x80, 0xBF⟩) := by
  unfold begin
  rw [if_neg (by omega), if_pos ⟨hlow, hhigh⟩]

/-- What begins a character of three bytes: the first of them are not written in fewer bytes, and
the surrogates among them are no characters. -/
theorem begin_three (hlow : 0xE0 ≤ b.toNat) (hhigh : b.toNat ≤ 0xEF) :
    begin b = ([], some ⟨2, b.toNat - 0xE0, if b.toNat = 0xE0 then 0xA0 else 0x80,
      if b.toNat = 0xED then 0x9F else 0xBF⟩) := by
  unfold begin
  grind

theorem begin_four (hlow : 0xF0 ≤ b.toNat) (hhigh : b.toNat ≤ 0xF4) :
    begin b = ([], some ⟨3, b.toNat - 0xF0, if b.toNat = 0xF0 then 0x90 else 0x80,
      if b.toNat = 0xF4 then 0x8F else 0xBF⟩) := by
  unfold begin
  grind

theorem decodeFrom_begin (h : begin b = ([], some s)) :
    decodeFrom none (b :: rest) = decodeFrom (some s) rest := by
  simp [decodeFrom, step, h]

/-- A byte inside a character. -/
theorem decodeFrom_more (hmissing : s.missing ≠ 1) (hlow : s.low ≤ b.toNat) (hhigh : b.toNat ≤ s.high) :
    decodeFrom (some s) (b :: rest) =
      decodeFrom (some ⟨s.missing - 1, s.bits * 64 + b.toNat % 64, 0x80, 0xBF⟩) rest := by
  simp [decodeFrom, step, hlow, hhigh, hmissing]

/-- The last byte of a character. -/
theorem decodeFrom_last (hmissing : s.missing = 1) (hlow : s.low ≤ b.toNat) (hhigh : b.toNat ≤ s.high) :
    decodeFrom (some s) (b :: rest) =
      Char.ofNat (s.bits * 64 + b.toNat % 64) :: decodeFrom none rest := by
  simp [decodeFrom, step, hlow, hhigh, hmissing]

/-- A character is read back from its bytes. -/
theorem decodeFrom_encodeChar (c : Char) (rest : Bytes) :
    decodeFrom none (String.utf8EncodeChar c ++ rest) = c :: decodeFrom none rest := by
  have hc : Char.ofNat c.val.toNat = c := Char.ofNat_toNat c
  have hvalid : c.val.toNat < 0xD800 ∨ 0xDFFF < c.val.toNat ∧ c.val.toNat < 0x110000 := c.valid
  -- a byte that continues a character, with the six bits it adds
  have htail : ∀ n, (UInt8.ofNat (n % 64 + 128)).toNat = n % 64 + 128 := fun n => by
    rw [UInt8.toNat_ofNat']
    omega
  unfold String.utf8EncodeChar
  dsimp only
  generalize c.val.toNat = v at hc hvalid
  split
  · have hb : (UInt8.ofNat v).toNat = v := by
      rw [UInt8.toNat_ofNat']
      omega
    have hbegin : begin (UInt8.ofNat v) = ([c], none) := by
      unfold begin
      rw [hb, if_pos (by omega), hc]
    simp [decodeFrom, step, hbegin]
  split
  · have hb : (UInt8.ofNat (v / 64 % 32 + 192)).toNat = v / 64 + 0xC0 := by
      rw [UInt8.toNat_ofNat']
      omega
    have hbegin := @begin_two (UInt8.ofNat (v / 64 % 32 + 192)) (by omega) (by omega)
    simp only [List.cons_append, List.nil_append]
    rw [decodeFrom_begin hbegin, decodeFrom_last rfl, htail, hb, ← hc]
    · congr 2
      simp only
      omega
    · simp only [htail]
      omega
    · simp only [htail]
      omega
  split
  · have hb : (UInt8.ofNat (v / 4096 % 16 + 224)).toNat = v / 4096 + 0xE0 := by
      rw [UInt8.toNat_ofNat']
      omega
    have hbegin := @begin_three (UInt8.ofNat (v / 4096 % 16 + 224)) (by omega) (by omega)
    rw [hb] at hbegin
    simp only [List.cons_append, List.nil_append]
    rw [decodeFrom_begin hbegin, decodeFrom_more (by simp), decodeFrom_last rfl, htail, htail, ← hc]
    · congr 2
      simp only
      omega
    · simp only [htail]
      omega
    · simp only [htail]
      omega
    · simp only [htail]
      split <;> omega
    · simp only [htail]
      split <;> omega
  · have hb : (UInt8.ofNat (v / 262144 % 8 + 240)).toNat = v / 262144 + 0xF0 := by
      rw [UInt8.toNat_ofNat']
      omega
    have hbegin := @begin_four (UInt8.ofNat (v / 262144 % 8 + 240)) (by omega) (by omega)
    rw [hb] at hbegin
    simp only [List.cons_append, List.nil_append]
    rw [decodeFrom_begin hbegin, decodeFrom_more (by simp), decodeFrom_more (by simp),
      decodeFrom_last rfl, htail, htail, htail, ← hc]
    · congr 2
      simp only
      omega
    all_goals simp only [htail]
    all_goals first | omega | (split <;> omega)

/-- A text is read back from its bytes. -/
theorem decode_ofText (s : String) : decode (Bytes.ofText s) = s := by
  have hchars : ∀ cs : List Char, decodeFrom none (cs.flatMap String.utf8EncodeChar) = cs := by
    intro cs
    induction cs with
    | nil => rfl
    | cons c cs ih => rw [List.flatMap_cons, decodeFrom_encodeChar, ih]
  rw [decode, Bytes.ofText_eq_flatMap, hchars, String.ofList_toList]

end Lossy

/-- A text without blanks behind it loses nothing. -/
theorem Bytes.trimmed_eq_self {s : String} (h : (ofText s).getLast? ≠ some blank) : trimmed s = s := by
  have hbytes : ofText (trimmed s) = ofText s := by
    rw [ofText_trimmed, ← List.reverse_inj, List.reverse_reverse]
    rw [List.getLast?_eq_head?_reverse] at h
    cases hrev : (ofText s).reverse with
    | nil => rfl
    | cons b rest =>
      rw [hrev] at h
      exact List.dropWhile_cons_of_neg fun hb => h (congrArg some (beq_iff_eq.mp hb))
  rw [← Lossy.decode_ofText (trimmed s), hbytes, Lossy.decode_ofText]

end PagedIndex
