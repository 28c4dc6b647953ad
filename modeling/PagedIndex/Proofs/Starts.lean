import Mathlib.Data.List.TakeWhile
import PagedIndex.Proofs.Order
import PagedIndex.Tree.Cursor

/-!
# Keys with a common start

The keys of one length that begin alike stand together in key order: above them is the least key
that is above all of them, if there is one, and nothing but keys with another start is above that.

## Main definitions

* `Collation.starts` — keys that begin alike.
* `Collation.Tops` — keys above all that begin alike.

## Main statements

* `Collation.starts_of_lt` — between a key with a start and the least key above the start.
* `Collation.lt_of_starts` — the least key above a start is above all keys that have it.
* `Collation.exists_least_tops` — and no other key that is above all of them is below it.
-/

namespace PagedIndex

/-- A fold that keeps the least of what it has seen. -/
theorem foldl_least {α : Type} (le : α → α → Prop) (p : α → Prop) (step : α → α → α)
    (hrefl : ∀ a, le a a) (htrans : ∀ {a b c}, le a b → le b c → le a c)
    (hold : ∀ best x, le (step best x) best) (hnew : ∀ best x, p x → le (step best x) x)
    (l : List α) (init : α) :
    le (l.foldl step init) init ∧ ∀ x ∈ l, p x → le (l.foldl step init) x := by
  induction l generalizing init with
  | nil => exact ⟨hrefl init, nofun⟩
  | cons a l ih =>
    obtain ⟨hle, hall⟩ := ih (step init a)
    refine ⟨htrans hle (hold init a), fun x hx hp => ?_⟩
    rcases List.mem_cons.mp hx with rfl | hx
    · exact htrans hle (hnew init x hp)
    · exact hall x hx hp

namespace Collation

variable {c : Collation} {b y : UInt8} {padded start key other above front hs : Bytes}
  {length : Nat}

/-! ## Ranks of bytes -/

theorem mem_allBytes (b : UInt8) : b ∈ allBytes :=
  List.mem_map.mpr ⟨b.toNat, List.mem_range.mpr b.toNat_lt, UInt8.ofNat_toNat⟩

theorem weight_le_highest (c : Collation) (b : UInt8) : c.weight b ≤ c.weight c.highest := by
  have h := foldl_least (fun x y => c.weight y ≤ c.weight x) (fun _ => True)
    (fun best x => if c.weight x > c.weight best then x else best)
    (fun a => UInt8.le_refl _) (fun h h' => UInt8.le_trans h' h) ?_ ?_ allBytes 0xFF
  · exact h.2 b (mem_allBytes b) trivial
  · intro best x
    split
    · next h => exact UInt8.le_of_lt h
    · exact UInt8.le_refl _
  · intro best x _
    split
    · exact UInt8.le_refl _
    · next h => exact UInt8.not_lt.mp h

theorem lowest_le_weight (c : Collation) (b : UInt8) : c.weight c.lowest ≤ c.weight b := by
  have h := foldl_least (fun x y => c.weight x ≤ c.weight y) (fun _ => True)
    (fun best x => if c.weight x < c.weight best then x else best)
    (fun a => UInt8.le_refl _) (fun h h' => UInt8.le_trans h h') ?_ ?_ allBytes 0x00
  · exact h.2 b (mem_allBytes b) trivial
  · intro best x
    split
    · next h => exact UInt8.le_of_lt h
    · exact UInt8.le_refl _
  · intro best x _
    split
    · exact UInt8.le_refl _
    · next h => exact UInt8.not_lt.mp h

theorem toNat_succ (h : b ≠ 0xFF) : (b + 1).toNat = b.toNat + 1 := by
  have hne : b.toNat ≠ 255 := fun hb => h (UInt8.toNat_inj.mp hb)
  have hlt := b.toNat_lt
  rw [UInt8.toNat_add, UInt8.toNat_one]
  omega

/-- No byte ranks between a byte and the next one above it. -/
theorem nextAbove_le (h : c.weight b < c.weight y) : c.weight (c.nextAbove b) ≤ c.weight y := by
  cases c with
  | binary =>
    simp only [weight, nextAbove] at *
    split
    · next hb => exact hb ▸ UInt8.le_of_lt h
    · next hb =>
      rw [UInt8.le_iff_toNat_le, toNat_succ hb]
      exact UInt8.lt_iff_toNat_lt.mp h
  | table ranks =>
    have hfold := foldl_least (fun x y => weight (.table ranks) x ≤ weight (.table ranks) y)
      (fun x => weight (.table ranks) x > weight (.table ranks) b)
      (fun best x => if weight (.table ranks) x > weight (.table ranks) b &&
        weight (.table ranks) x < weight (.table ranks) best then x else best)
      (fun a => UInt8.le_refl _) (fun h h' => UInt8.le_trans h h') ?_ ?_ allBytes
      (highest (.table ranks))
    · exact hfold.2 y (mem_allBytes y) h
    · intro best x
      split
      · next h => exact UInt8.le_of_lt (of_decide_eq_true (Bool.and_eq_true_iff.mp h).2)
      · exact UInt8.le_refl _
    · intro best x hx
      split
      · exact UInt8.le_refl _
      · next h =>
        refine UInt8.not_lt.mp fun hlt => h ?_
        simp [hx, hlt]

/-- Above a byte that is not highest there is one. -/
theorem lt_nextAbove (h : c.weight b ≠ c.weight c.highest) :
    c.weight b < c.weight (c.nextAbove b) := by
  have hlt : c.weight b < c.weight c.highest := UInt8.lt_of_le_of_ne (c.weight_le_highest b) h
  cases c with
  | binary =>
    simp only [weight, nextAbove] at *
    split
    · next hb =>
      have hbig := UInt8.lt_iff_toNat_lt.mp hlt
      have hsmall := (highest .binary).toNat_lt
      rw [hb, show (0xFF : UInt8).toNat = 255 from rfl] at hbig
      omega
    · next hb =>
      rw [UInt8.lt_iff_toNat_lt, toNat_succ hb]
      exact Nat.lt_succ_self _
  | table ranks =>
    unfold nextAbove
    refine List.foldlRecOn allBytes _ (motive := fun best =>
      weight (.table ranks) b < weight (.table ranks) best) hlt fun best hbest x _ => ?_
    split
    · next h => exact of_decide_eq_true (Bool.and_eq_true_iff.mp h).1
    · exact hbest

/-! ## Comparing piece by piece -/

theorem compare_cons (c : Collation) (x y : UInt8) (xs ys : Bytes) :
    c.compare (x :: xs) (y :: ys) = (Ord.compare (c.weight x) (c.weight y)).then (c.compare xs ys) := by
  rw [compare]
  cases Ord.compare (c.weight x) (c.weight y) <;> rfl

theorem compare_append {a b : Bytes} (h : a.length = b.length) (xs ys : Bytes) :
    c.compare (a ++ xs) (b ++ ys) = (c.compare a b).then (c.compare xs ys) := by
  induction a generalizing b with
  | nil =>
    obtain rfl := List.length_eq_zero_iff.mp h.symm
    rfl
  | cons x a ih =>
    cases b with
    | nil => cases h
    | cons y b =>
      rw [List.cons_append, List.cons_append, compare_cons, compare_cons, ih (Nat.succ.inj h),
        Ordering.then_assoc]

/-- Nothing of a length is below the lowest bytes. -/
theorem lowest_isLE (c : Collation) (key : Bytes) :
    (c.compare (List.replicate key.length c.lowest) key).isLE := by
  induction key with
  | nil => rfl
  | cons x key ih =>
    rw [List.length_cons, List.replicate_succ, compare_cons, Ordering.isLE_then_iff_and]
    exact ⟨(Std.LawfulOrderOrd.isLE_compare _ _).mpr (c.lowest_le_weight x), .inr ih⟩

/-- Nothing of a length is above bytes that are highest. -/
theorem isLE_of_highest (hhs : ∀ x ∈ hs, c.weight x = c.weight c.highest)
    (hlen : key.length = hs.length) : (c.compare key hs).isLE := by
  induction hs generalizing key with
  | nil =>
    obtain rfl := List.length_eq_zero_iff.mp hlen
    rfl
  | cons h hs ih =>
    cases key with
    | nil => cases hlen
    | cons x key =>
      rw [compare_cons, Ordering.isLE_then_iff_and]
      refine ⟨(Std.LawfulOrderOrd.isLE_compare _ _).mpr ?_,
        .inr (ih (fun y hy => hhs y (List.mem_cons_of_mem _ hy)) (Nat.succ.inj hlen))⟩
      rw [hhs h List.mem_cons_self]
      exact c.weight_le_highest x

/-! ## Starts -/

/-- Whether the first bytes of a key collate like those of another. -/
def starts (c : Collation) (length : Nat) (start key : Bytes) : Bool :=
  c.compare (key.take length) (start.take length) == .eq

theorem starts_iff : c.starts length start key = true ↔
    c.compare (key.take length) (start.take length) = .eq := beq_iff_eq

theorem starts_of_eq (hlen : key.length = padded.length) (h : c.compare key padded = .eq) :
    c.starts length padded key = true := by
  rw [← key.take_append_drop length, ← padded.take_append_drop length,
    compare_append (by simp [hlen])] at h
  exact starts_iff.mpr (Ordering.then_eq_eq.mp h).1

/-- The least key above a start: its last byte that is not highest goes up. -/
theorem leastAbove?_eq_some (h : c.leastAbove? padded length = some above) :
    ∃ front b hs, padded.take length = front ++ b :: hs ∧ c.weight b ≠ c.weight c.highest ∧
      (∀ x ∈ hs, c.weight x = c.weight c.highest) ∧
      above = front ++ c.nextAbove b ::
        List.replicate (padded.length - front.length - 1) c.lowest := by
  unfold leastAbove? at h
  dsimp only at h
  split at h
  · cases h
  · next b rest hdrop =>
    cases h
    refine ⟨rest.reverse, b, ((padded.take length).reverse.takeWhile fun b =>
      c.weight b == c.weight c.highest).reverse, ?_, ?_, ?_, by rw [List.length_reverse]⟩
    · have hsplit := List.takeWhile_append_dropWhile
        (p := fun b => c.weight b == c.weight c.highest) (l := (padded.take length).reverse)
      rw [hdrop] at hsplit
      simpa using (congrArg List.reverse hsplit).symm
    · have hne := List.head_dropWhile_not (l := (padded.take length).reverse)
        (fun b => c.weight b == c.weight c.highest) (by simp [hdrop])
      simpa [hdrop] using hne
    · intro x hx
      have hp := List.mem_takeWhile_imp (List.mem_reverse.mp hx)
      exact beq_iff_eq.mp hp

/-- There is no key above a start of highest bytes. -/
theorem leastAbove?_eq_none (h : c.leastAbove? padded length = none) :
    ∀ x ∈ padded.take length, c.weight x = c.weight c.highest := by
  unfold leastAbove? at h
  dsimp only at h
  split at h
  · next hdrop =>
    intro x hx
    exact beq_iff_eq.mp (List.dropWhile_eq_nil_iff.mp hdrop x (List.mem_reverse.mpr hx))
  · cases h

section Above

variable (hkey : key.length = padded.length) (hother : other.length = padded.length)
include hkey

/-- A key in pieces as the start has them: what stands in front of a byte of the start, the byte
there, and the rest. -/
theorem exists_pieces (htake : padded.take length = front ++ b :: hs) :
    ∃ k y ys, key = k ++ y :: ys ∧ k.length = front.length ∧
      ys.length = padded.length - front.length - 1 ∧ key.take length = k ++ y :: ys.take hs.length := by
  have hlength := congrArg List.length htake
  simp only [List.length_take, List.length_append, List.length_cons] at hlength
  obtain ⟨y, ys, hrest⟩ : ∃ y ys, key.drop front.length = y :: ys :=
    List.exists_cons_of_length_pos (by rw [List.length_drop]; omega)
  have hsplit := key.take_append_drop front.length
  rw [hrest] at hsplit
  have hk : (key.take front.length).length = front.length := by rw [List.length_take]; omega
  have hys := congrArg List.length hrest
  rw [List.length_drop, List.length_cons] at hys
  refine ⟨key.take front.length, y, ys, hsplit.symm, hk, by omega, ?_⟩
  refine (congrArg (List.take length) hsplit).symm.trans ?_
  rw [List.take_append, List.take_take, hk, Nat.min_eq_right (show front.length ≤ length by omega)]
  refine congrArg _ ?_
  rcases Nat.le_total padded.length length with hle | hle
  · rw [show hs.length = ys.length by omega, List.take_length]
    exact List.take_of_length_le (by rw [List.length_cons]; omega)
  · rw [show length - front.length = hs.length + 1 by omega, List.take_succ_cons]

/-- The least key above a start is above all keys that have it. -/
theorem lt_of_starts (h : c.leastAbove? padded length = some above)
    (hstart : c.starts length padded key = true) : c.compare key above = .lt := by
  obtain ⟨front, b, hs, htake, hb, -, rfl⟩ := leastAbove?_eq_some h
  obtain ⟨k, y, ys, rfl, hk, -, hkeytake⟩ := exists_pieces hkey htake
  rw [starts_iff, hkeytake, htake, compare_append hk, compare_cons] at hstart
  obtain ⟨hfront, hrest⟩ := Ordering.then_eq_eq.mp hstart
  have hy := Std.compare_eq_iff_eq.mp (Ordering.then_eq_eq.mp hrest).1
  rw [compare_append hk, hfront, compare_cons, hy, Std.compare_eq_lt.mpr (lt_nextAbove hb)]
  rfl

include hother

/-- A key that is not below one with a start is not below the start. -/
theorem isLE_start (hstart : c.starts length padded key = true) (hle : (c.compare key other).isLE) :
    (c.compare (padded.take length) (other.take length)).isLE := by
  rw [← key.take_append_drop length, ← other.take_append_drop length,
    compare_append (by simp [hkey, hother]), Ordering.isLE_then_iff_and] at hle
  refine Std.TransCmp.isLE_trans ?_ hle.1
  rw [Std.OrientedCmp.eq_symm (starts_iff.mp hstart)]
  rfl

/-- A key between one with a start and the least key above the start has the start too. -/
theorem starts_of_lt (h : c.leastAbove? padded length = some above)
    (hstart : c.starts length padded key = true) (hle : (c.compare key other).isLE)
    (hlt : c.compare other above = .lt) : c.starts length padded other = true := by
  have hstartle := isLE_start hkey hother hstart hle
  obtain ⟨front, b, hs, htake, -, hhs, rfl⟩ := leastAbove?_eq_some h
  obtain ⟨k, y, ys, rfl, hk, hys, hothertake⟩ := exists_pieces hother htake
  rw [hothertake, htake, compare_append hk.symm, compare_cons, Ordering.isLE_then_iff_and,
    Ordering.isLE_then_iff_and] at hstartle
  rw [compare_append hk, compare_cons, ← hys] at hlt
  rw [starts_iff, hothertake, htake, compare_append hk, compare_cons]
  -- the front is squeezed between that of the start and that of the key above it
  have hfront : c.compare k front = .eq := by
    refine Std.OrientedCmp.isLE_antisymm ?_ hstartle.1
    rcases Ordering.then_eq_lt.mp hlt with h | ⟨h, -⟩ <;> rw [h] <;> rfl
  have hfront' : c.compare front k = .eq := Std.OrientedCmp.eq_symm hfront
  rw [hfront, Ordering.eq_then] at hlt ⊢
  simp only [hfront', reduceCtorEq, false_or] at hstartle
  obtain ⟨-, hby, hrest⟩ := hstartle
  -- and so is the byte behind it
  have hlty : c.weight y < c.weight (c.nextAbove b) := by
    rcases Ordering.then_eq_lt.mp hlt with h | ⟨-, h⟩
    · exact Std.compare_eq_lt.mp h
    · have hge := c.lowest_isLE ys
      rw [Std.OrientedCmp.gt_of_lt h] at hge
      cases hge
  have hy : c.weight y = c.weight b :=
    UInt8.le_antisymm (UInt8.not_lt.mp fun hlt => UInt8.not_lt.mpr (nextAbove_le hlt) hlty)
      ((Std.LawfulOrderOrd.isLE_compare _ _).mp hby)
  rw [hy, Std.compare_self] at hrest ⊢
  simp only [reduceCtorEq, false_or, Ordering.eq_then] at hrest ⊢
  have hlen := congrArg List.length htake
  simp only [List.length_take, List.length_append, List.length_cons] at hlen
  refine Std.OrientedCmp.isLE_antisymm (isLE_of_highest hhs ?_) hrest
  rw [List.length_take]
  omega

/-- A key above one that starts with highest bytes starts with them too. -/
theorem starts_of_highest (h : c.leastAbove? padded length = none)
    (hstart : c.starts length padded key = true) (hle : (c.compare key other).isLE) :
    c.starts length padded other = true := by
  have hstartle := isLE_start hkey hother hstart hle
  have hhighest : (c.compare (other.take length) (padded.take length)).isLE :=
    isLE_of_highest (leastAbove?_eq_none h) (by simp [hother])
  exact starts_iff.mpr (Std.OrientedCmp.isLE_antisymm hhighest hstartle)

end Above

/-! ## The least key above a start -/

/-- A key of the length of `padded` that is above all keys of this length that begin like `padded`
does in its first `length` bytes. -/
structure Tops (c : Collation) (length : Nat) (padded bound : Bytes) : Prop where
  length_eq : bound.length = padded.length
  gt : ∀ key : Bytes, key.length = padded.length → c.starts length padded key = true →
    c.compare bound key = .gt

theorem starts_self : c.starts length padded padded = true :=
  starts_iff.mpr Std.ReflCmp.compare_self

theorem length_leastAbove? (h : c.leastAbove? padded length = some above) :
    above.length = padded.length := by
  obtain ⟨front, b, hs, htake, -, -, rfl⟩ := leastAbove?_eq_some h
  have hlength := congrArg List.length htake
  simp only [List.length_take, List.length_append, List.length_cons] at hlength
  simp only [List.length_append, List.length_cons, List.length_replicate]
  omega

theorem tops_leastAbove? (h : c.leastAbove? padded length = some above) :
    c.Tops length padded above where
  length_eq := length_leastAbove? h
  gt _ hkey hstart := Std.OrientedCmp.gt_of_lt (lt_of_starts hkey h hstart)

/-- A key above all that have a start is not below the least one above the start: it would lie
between this one and a key with the start, and would have the start itself. -/
theorem Tops.not_lt (hbound : c.Tops length padded other)
    (h : c.leastAbove? padded length = some above) : c.compare other above ≠ .lt := by
  intro hlt
  have hpadded : c.compare padded other = .lt :=
    Std.OrientedCmp.lt_of_gt (hbound.gt padded rfl starts_self)
  have hstarts := starts_of_lt rfl hbound.length_eq h starts_self (by rw [hpadded]; rfl) hlt
  have hself : c.compare other other = .eq := Std.ReflCmp.compare_self
  rw [hbound.gt other hbound.length_eq hstarts] at hself
  cases hself

/-- If a byte of a start is not highest, the last such byte goes up to the next rank and the lowest
byte follows. This gives a key above all keys with the start, and none that is above all of them is
below it. -/
theorem exists_least_tops (c : Collation) (padded : Bytes) (length : Nat)
    (h : ∃ b ∈ padded.take length, ∃ y, c.weight b < c.weight y) :
    ∃ above, c.leastAbove? padded length = some above ∧
      (∃ front b hs, padded.take length = front ++ b :: hs ∧ (∃ y, c.weight b < c.weight y) ∧
        (∀ x ∈ hs, ∀ y, c.weight y ≤ c.weight x) ∧
        above = front ++ c.nextAbove b ::
          List.replicate (padded.length - front.length - 1) c.lowest) ∧
      c.Tops length padded above ∧
      ∀ bound, c.Tops length padded bound → c.compare bound above ≠ .lt := by
  obtain ⟨low, hlow, y, hy⟩ := h
  cases habove : c.leastAbove? padded length with
  | none =>
    have hle := c.weight_le_highest y
    rw [← leastAbove?_eq_none habove low hlow] at hle
    exact absurd hy (UInt8.not_lt.mpr hle)
  | some above =>
    obtain ⟨front, b, hs, htake, hb, hhs, rfl⟩ := leastAbove?_eq_some habove
    refine ⟨_, rfl, ⟨front, b, hs, htake, ⟨_, lt_nextAbove hb⟩, ?_, rfl⟩,
      tops_leastAbove? habove, fun bound hbound => hbound.not_lt habove⟩
    intro x hx y
    rw [hhs x hx]
    exact c.weight_le_highest y

/-- One byte ranks above the others, one below them and one in between; all others rank alike. -/
def sparse : Collation :=
  .table ((((Vector.replicate 256 7).set 0x00 9).set 0x41 4).set 0x80 2)

theorem exists_least_tops_binary_sparse :
    (∃ b ∈ ([0x41, 0xFF, 0x55] : Bytes).take 2, ∃ y, binary.weight b < binary.weight y) ∧
      binary.Tops 2 [0x41, 0xFF, 0x55] [0x42, 0x00, 0x00] ∧
      (∃ b ∈ ([0x41, 0x00, 0x55] : Bytes).take 2, ∃ y, sparse.weight b < sparse.weight y) ∧
      ∃ above, sparse.leastAbove? [0x41, 0x00, 0x55] 2 = some above ∧
        sparse.Tops 2 [0x41, 0x00, 0x55] above := by
  have hbinary : ∃ b ∈ ([0x41, 0xFF, 0x55] : Bytes).take 2, ∃ y,
      binary.weight b < binary.weight y := ⟨0x41, by simp, 0xFF, by decide⟩
  have hsparse : ∃ b ∈ ([0x41, 0x00, 0x55] : Bytes).take 2, ∃ y,
      sparse.weight b < sparse.weight y := ⟨0x41, by simp, 0x00, by decide⟩
  have hvalue : binary.leastAbove? [0x41, 0xFF, 0x55] 2 = some [0x42, 0x00, 0x00] := by
    decide +kernel
  obtain ⟨above, heq, -, htops, -⟩ := exists_least_tops binary _ _ hbinary
  rw [hvalue] at heq
  cases heq
  obtain ⟨above, heq, -, htops', -⟩ := exists_least_tops sparse _ _ hsparse
  exact ⟨hbinary, htops, hsparse, above, heq, htops'⟩

end Collation

end PagedIndex
