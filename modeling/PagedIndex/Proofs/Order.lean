import PagedIndex.Entry
import PagedIndex.Tree.Survey

/-!
# The order of entries

Keys are ranked bytewise through a collation, entries by key and then by record position. Both
comparisons are total preorders, and `Tree.precedes` is the strict order in which the entries of
a file follow each other.

## Main definitions

* `Tree.Ascending` — lists whose entries follow each other in the order of a tree.
* `Tree.loose` — the tree with keys that may repeat.
-/

namespace PagedIndex

namespace Collation

/-- Comparing keys is comparing the strings of their ranks. -/
theorem compare_eq_compareLex (c : Collation) (a b : Bytes) :
    c.compare a b = List.compareLex Ord.compare (a.map c.weight) (b.map c.weight) := by
  induction a generalizing b with
  | nil => cases b <;> rfl
  | cons x xs ih =>
    cases b with
    | nil => rfl
    | cons y ys =>
      rw [List.map_cons, List.map_cons, List.compareLex_cons_cons, ← ih, Collation.compare]
      cases Ord.compare (c.weight x) (c.weight y) <;> rfl

instance (c : Collation) : Std.TransCmp c.compare where
  eq_swap := by
    intro a b
    rw [compare_eq_compareLex, compare_eq_compareLex]
    exact Std.OrientedCmp.eq_swap
  isLE_trans := by
    intro x y z
    rw [compare_eq_compareLex, compare_eq_compareLex, compare_eq_compareLex]
    exact Std.TransCmp.isLE_trans

end Collation

namespace Entry

theorem compare_eq_then (c : Collation) (exact : Bool) (a b : Entry) :
    compare c exact a b =
      (c.compare a.key b.key).then (if exact then Ord.compare a.record b.record else .eq) := by
  unfold compare
  cases c.compare a.key b.key <;> rfl

instance (c : Collation) (exact : Bool) : Std.TransCmp (compare c exact) where
  eq_swap := by
    intro a b
    rw [compare_eq_then, compare_eq_then, Ordering.swap_then,
      ← @Std.OrientedCmp.eq_swap _ c.compare]
    cases exact
    · rfl
    · rw [if_pos rfl, if_pos rfl, ← Std.OrientedCmp.eq_swap]
  isLE_trans := by
    intro x y z hxy hyz
    rw [compare_eq_then, Ordering.isLE_then_iff_and] at *
    refine ⟨Std.TransCmp.isLE_trans hxy.1 hyz.1, ?_⟩
    rcases hxy.2 with h | h
    · exact .inl (Std.TransCmp.lt_of_lt_of_isLE h hyz.1)
    · rcases hyz.2 with g | g
      · exact .inl (Std.TransCmp.lt_of_isLE_of_lt hxy.1 g)
      · refine .inr ?_
        cases exact
        · rfl
        · exact @Std.TransOrd.isLE_trans Nat _ _ _ _ _ h g

theorem compare_lt_of_key_lt {c : Collation} {exact : Bool} {a b : Entry}
    (h : c.compare a.key b.key = .lt) : compare c exact a b = .lt := by
  rw [compare_eq_then, h]; rfl

theorem key_isLE_of_compare_lt {c : Collation} {exact : Bool} {a b : Entry}
    (h : compare c exact a b = .lt) : (c.compare a.key b.key).isLE := by
  rw [compare_eq_then] at h
  cases hk : c.compare a.key b.key <;> simp_all

theorem compare_exact_eq_iff {c : Collation} {a b : Entry} :
    compare c true a b = .eq ↔ c.compare a.key b.key = .eq ∧ a.record = b.record := by
  rw [compare_eq_then, Ordering.then_eq_eq, if_pos rfl,
    @Std.LawfulEqCmp.compare_eq_iff_eq _ (Ord.compare : Nat → Nat → Ordering)]

theorem compare_loose (c : Collation) (a b : Entry) :
    compare c false a b = c.compare a.key b.key := by
  unfold compare
  cases c.compare a.key b.key <;> rfl

end Entry

namespace Tree

variable (t : Tree)

/-- The entries of a list follow each other in the order of a tree. -/
def Ascending (es : List Entry) : Prop := es.Pairwise fun a b => t.precedes a b

variable {t}

theorem precedes_iff {a b : Entry} :
    t.precedes a b ↔ Entry.compare t.collation true a b = .lt ∧
      (t.duplicates = false → t.collation.compare a.key b.key ≠ .eq) := by
  unfold precedes
  cases t.duplicates <;> simp

theorem precedes_trans {a b c : Entry} (hab : t.precedes a b) (hbc : t.precedes b c) :
    t.precedes a c := by
  rw [precedes_iff] at *
  refine ⟨Std.TransCmp.lt_trans hab.1 hbc.1, fun hd hac => ?_⟩
  have hle := Entry.key_isLE_of_compare_lt hab.1
  have hlt : t.collation.compare b.key c.key = .lt := by
    have := Entry.key_isLE_of_compare_lt hbc.1
    have := hbc.2 hd
    cases h : t.collation.compare b.key c.key <;> simp_all
  have := Std.TransCmp.lt_of_isLE_of_lt hle hlt
  simp_all

theorem not_precedes_self (a : Entry) : ¬t.precedes a a := by
  rw [precedes_iff, @Std.ReflCmp.compare_self _ (Entry.compare t.collation true)]
  simp

/-- A list is checked to be in order by looking at neighbours. -/
theorem ordered_iff_ascending (es : List Entry) : t.ordered es ↔ t.Ascending es := by
  induction es with
  | nil => simp [ordered, Ascending]
  | cons a rest ih =>
    cases rest with
    | nil => simp [ordered, Ascending]
    | cons b rest =>
      rw [ordered, Bool.and_eq_true, ih]
      constructor
      · rintro ⟨hab, hrest⟩
        refine List.pairwise_cons.mpr ⟨fun x hx => ?_, hrest⟩
        rcases List.mem_cons.mp hx with rfl | hx
        · exact hab
        · exact precedes_trans hab (List.rel_of_pairwise_cons hrest hx)
      · intro h
        exact ⟨List.rel_of_pairwise_cons h List.mem_cons_self, h.of_cons⟩

section Compare

variable {exact : Bool} {x a b : Entry}

theorem isLE_of_precedes (exact : Bool) (h : t.precedes a b) :
    (Entry.compare t.collation exact a b).isLE := by
  have hlt := (precedes_iff.mp h).1
  cases exact with
  | true => simp [hlt]
  | false =>
    rw [Entry.compare_loose]
    exact Entry.key_isLE_of_compare_lt hlt

/-- Where no two entries compare equal, entries in order compare in order. -/
theorem lt_of_precedes (hexact : exact = true ∨ t.duplicates = false) (h : t.precedes a b) :
    Entry.compare t.collation exact a b = .lt := by
  have hle := isLE_of_precedes exact h
  rw [precedes_iff] at h
  cases exact with
  | true => exact h.1
  | false =>
    rw [Entry.compare_loose] at hle ⊢
    have hne := h.2 (by simpa using hexact)
    cases hk : t.collation.compare a.key b.key <;> simp_all

/-- Where keys do not repeat, they are in order too. -/
theorem key_lt_of_precedes (hd : t.duplicates = false) (h : t.precedes a b) :
    t.collation.compare a.key b.key = .lt := by
  rw [← Entry.compare_loose]
  exact lt_of_precedes (.inr hd) h

theorem gt_of_precedes (h : t.precedes a b) (hb : Entry.compare t.collation exact x b = .gt) :
    Entry.compare t.collation exact x a = .gt :=
  Std.TransCmp.gt_of_gt_of_isGE hb (Std.OrientedCmp.isGE_of_isLE (isLE_of_precedes exact h))

theorem lt_of_lt_of_precedes (h : t.precedes a b)
    (ha : Entry.compare t.collation exact x a = .lt) : Entry.compare t.collation exact x b = .lt :=
  Std.TransCmp.lt_of_lt_of_isLE ha (isLE_of_precedes exact h)

end Compare

/-! ## Keys that may repeat -/

/-- The same tree, with keys that may repeat. -/
def loose (t : Tree) : Tree := { t with duplicates := true }

theorem precedes_iff_loose {a b : Entry} : t.precedes a b ↔ t.loose.precedes a b ∧
    (t.duplicates = false → t.collation.compare a.key b.key ≠ .eq) := by
  rw [precedes_iff, precedes_iff]
  exact and_congr_left fun _ => (and_iff_left nofun).symm

/-- Entries are in the order of a tree if they are when keys may repeat, and no key repeats that may
not. -/
theorem ascending_iff_loose {es : List Entry} : t.Ascending es ↔ t.loose.Ascending es ∧
    (t.duplicates = false → es.Pairwise fun a b => t.collation.compare a.key b.key ≠ .eq) := by
  refine ⟨fun h => ⟨h.imp fun hab => (precedes_iff_loose.mp hab).1, fun hd =>
    h.imp fun hab => (precedes_iff_loose.mp hab).2 hd⟩, fun ⟨h, hkeys⟩ => ?_⟩
  cases hd : t.duplicates with
  | true => exact h.imp fun hab => precedes_iff_loose.mpr ⟨hab, fun hfalse => by simp [hd] at hfalse⟩
  | false => exact (h.and (hkeys hd)).imp fun hab => precedes_iff_loose.mpr ⟨hab.1, fun _ => hab.2⟩

theorem Ascending.loose {es : List Entry} (h : t.Ascending es) : t.loose.Ascending es :=
  (ascending_iff_loose.mp h).1

theorem Ascending.sublist {es fs : List Entry} (h : t.Ascending fs) (hs : es.Sublist fs) :
    t.Ascending es := List.Pairwise.sublist hs h

/-- An entry put at its place keeps a list in order. -/
theorem Ascending.insert {front back : List Entry} {e : Entry} (h : t.Ascending (front ++ back))
    (hless : ∀ a ∈ front, Entry.compare t.collation true e a = .gt)
    (hgreater : ∀ a ∈ back, Entry.compare t.collation true e a = .lt)
    (hkey : t.duplicates = false →
      ∀ a ∈ front ++ back, t.collation.compare e.key a.key ≠ .eq) :
    t.Ascending (front ++ e :: back) := by
  obtain ⟨hfront, hback, hacross⟩ := List.pairwise_append.mp h
  refine List.pairwise_append.mpr ⟨hfront, List.pairwise_cons.mpr ⟨fun a ha => ?_, hback⟩,
    fun a ha b hb => ?_⟩
  · exact precedes_iff.mpr ⟨hgreater a ha, fun hd => hkey hd a (List.mem_append_right _ ha)⟩
  · rcases List.mem_cons.mp hb with rfl | hb
    · refine precedes_iff.mpr ⟨Std.OrientedCmp.lt_of_gt (hless a ha), fun hd heq => ?_⟩
      exact hkey hd a (List.mem_append_left _ ha) (Std.OrientedCmp.eq_symm heq)
    · exact hacross a ha b hb

end Tree

end PagedIndex
