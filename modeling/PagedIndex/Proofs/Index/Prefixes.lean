import Mathlib.Data.List.Pairwise
import PagedIndex.Proofs.Index.Catalog

/-!
# The last entry with a start

A move to the last entry with a start stands on an entry if and only if there is one that has the
start, and otherwise next to all keys that would have it. The entry is the last one that has the
start, unless the start is of highest bytes and the highest key repeats: then it is the first of
that key.

## Main definitions

* `Tree.Begins` — entries with a start.
* `Tree.Tops` — entries of the highest key.
* `Tree.Crowded` — several entries of the highest key, and a start that does not tell them apart.
* `Index.FindingLast` — what a move to the last entry with a start comes to.

## Main statements

* `Collation.lastOf_last`, `Collation.lastOf_first` — which entry the move lands on.
* `Index.AsPlanned.findingLast` — the move.
-/

namespace PagedIndex

/-! ## Starts of highest bytes -/

namespace Collation

variable {c : Collation} {padded start key : Bytes} {length : Nat}

/-- The start itself is of highest bytes if no key is above it. -/
theorem leastAbove?_eq_none_iff : c.leastAbove? padded length = none ↔
    ∀ x ∈ padded.take length, c.weight x = c.weight c.highest := by
  refine ⟨leastAbove?_eq_none, fun hhighest => ?_⟩
  cases habove : c.leastAbove? padded length with
  | none => rfl
  | some above =>
    obtain ⟨front, b, hs, htake, hb, -⟩ := leastAbove?_eq_some habove
    exact absurd (hhighest b (by simp [htake])) hb

/-- No key with a start is above the start padded with highest bytes. -/
theorem isLE_of_starts (hkey : key.length = padded.length)
    (hpad : ∀ x ∈ padded.drop length, c.weight x = c.weight c.highest)
    (hstart : c.starts length padded key = true) : (c.compare key padded).isLE := by
  rw [← key.take_append_drop length, ← padded.take_append_drop length,
    compare_append (by simp [hkey]), starts_iff.mp hstart]
  exact isLE_of_highest hpad (by simp [hkey])

/-- All that is of highest bytes collates alike. -/
theorem compare_eq_of_highest (hkey : ∀ x ∈ key, c.weight x = c.weight c.highest)
    (hstart : ∀ x ∈ start, c.weight x = c.weight c.highest) (hlength : key.length = start.length) :
    c.compare key start = .eq :=
  Std.OrientedCmp.isLE_antisymm (isLE_of_highest hstart hlength)
    (isLE_of_highest hkey hlength.symm)

end Collation

/-! ## Where the move lands -/

namespace Tree

variable (t : Tree)

/-- The first bytes of an entry's key collate like a start. -/
def Begins (start : Bytes) (a : Entry) : Prop :=
  t.collation.compare (a.key.take start.length) start = .eq

/-- The key of an entry collates like the highest key. -/
def Tops (a : Entry) : Prop :=
  t.collation.compare a.key (List.replicate t.layout.keyLength t.collation.highest) = .eq

/-- A start of highest bytes, and several entries of the highest key. Keys have to be allowed to
repeat for that. -/
structure Crowded (start : Bytes) (es : List Entry) : Prop where
  duplicates : t.duplicates = true
  highest : ∀ x ∈ start, t.collation.weight x = t.collation.weight t.collation.highest
  several : ∃ a ∈ es, ∃ b ∈ es, a ≠ b ∧ t.Tops a ∧ t.Tops b

/-- An entry above all keys that have a start. -/
def Exceeds (start : Bytes) (a : Entry) : Prop :=
  ∀ key : Bytes, key.length = t.layout.keyLength →
    t.collation.compare (key.take start.length) start = .eq → t.collation.compare key a.key = .lt

variable {t} {es : List Entry} {start : Bytes} {a b e : Entry}

/-- The last of the entries that are hit. -/
theorem Ascending.getLast?_filter {hit : Entry → Bool} (hasc : t.Ascending es)
    (h : (es.filter hit).getLast? = some e) :
    e ∈ es ∧ hit e ∧ ∀ a ∈ es, hit a → a = e ∨ t.precedes a e := by
  obtain ⟨front, hfront⟩ := List.getLast?_eq_some_iff.mp h
  have he : e ∈ es.filter hit := hfront ▸ by simp
  obtain ⟨hmem, hhit⟩ := List.mem_filter.mp he
  refine ⟨hmem, hhit, fun a ha hita => ?_⟩
  have hasc' := hasc.sublist (List.filter_sublist (p := hit))
  have hamem : a ∈ es.filter hit := List.mem_filter.mpr ⟨ha, hita⟩
  rw [hfront] at hasc' hamem
  rcases List.mem_append.mp hamem with hamem | hamem
  · exact .inr ((List.pairwise_append.mp hasc').2.2 a hamem e List.mem_cons_self)
  · exact .inl (List.mem_singleton.mp hamem)

/-- The first of the entries that are hit. -/
theorem Ascending.find? {hit : Entry → Bool} (hasc : t.Ascending es) (h : es.find? hit = some e) :
    e ∈ es ∧ hit e ∧ ∀ a ∈ es, hit a → a = e ∨ t.precedes e a := by
  obtain ⟨hhit, front, back, rfl, hfront⟩ := List.find?_eq_some_iff_append.mp h
  refine ⟨by simp, hhit, fun a ha hita => ?_⟩
  rcases List.mem_append.mp ha with ha | ha
  · exact absurd hita (by simpa using hfront a ha)
  · rcases List.mem_cons.mp ha with rfl | ha
    · exact .inl rfl
    · exact .inr (List.rel_of_pairwise_cons (List.pairwise_append.mp hasc).2.1 ha)

/-- Where keys may not repeat, a key tells an entry. -/
theorem Ascending.eq_of_key (hasc : t.Ascending es) (hduplicates : t.duplicates = false) (ha : a ∈ es)
    (hb : b ∈ es) (hkey : t.collation.compare a.key b.key = .eq) : a = b := by
  have : Std.Symm fun a b : Entry => t.collation.compare a.key b.key ≠ .eq :=
    ⟨fun a b hab hba => hab (Std.OrientedCmp.eq_symm hba)⟩
  refine Classical.byContradiction fun hne => ?_
  exact ((ascending_iff_loose.mp hasc).2 hduplicates).forall ha hb hne hkey

section Padded

variable {padded : Bytes} (hpadded : padded = Bytes.resize start t.layout.keyLength t.collation.highest)
  (hstart : start.length ≤ t.layout.keyLength)
include hpadded hstart

theorem padded_eq : padded =
    start ++ List.replicate (t.layout.keyLength - start.length) t.collation.highest := by
  rw [hpadded, Bytes.resize, List.take_of_length_le hstart]

omit hstart in
theorem length_padded : padded.length = t.layout.keyLength := by
  rw [hpadded, Bytes.length_resize]

theorem starts_padded (key : Bytes) : t.collation.starts start.length padded key = true ↔
    t.collation.compare (key.take start.length) start = .eq := by
  rw [Collation.starts_iff, padded_eq hpadded hstart, List.take_left]

/-- What pads a start ranks highest. -/
theorem drop_padded : ∀ x ∈ padded.drop start.length,
    t.collation.weight x = t.collation.weight t.collation.highest := by
  intro x hx
  rw [padded_eq hpadded hstart, List.drop_left] at hx
  rw [List.eq_of_mem_replicate hx]

/-- A start of highest bytes is padded to the highest key. -/
theorem tops_iff (hhighest : ∀ x ∈ start,
    t.collation.weight x = t.collation.weight t.collation.highest) :
    t.collation.compare padded a.key = .eq ↔ t.Tops a := by
  have htop : t.collation.compare padded
      (List.replicate t.layout.keyLength t.collation.highest) = .eq := by
    refine Collation.compare_eq_of_highest (fun x hx => ?_) (fun x hx => ?_) ?_
    · rw [padded_eq hpadded hstart] at hx
      rcases List.mem_append.mp hx with hx | hx
      · exact hhighest x hx
      · rw [List.eq_of_mem_replicate hx]
    · rw [List.eq_of_mem_replicate hx]
    · rw [length_padded hpadded, List.length_replicate]
  unfold Tops
  exact ⟨fun h => Std.TransCmp.eq_trans (Std.OrientedCmp.eq_symm h) htop,
    fun h => Std.TransCmp.eq_trans htop (Std.OrientedCmp.eq_symm h)⟩

/-- The entry that the move lands on has the start. -/
theorem begins_of_lastOf (hasc : t.Ascending es) (hkeys : ∀ a ∈ es, a.key.length = padded.length)
    (h : t.collation.lastOf padded start.length es = some e) : e ∈ es ∧ t.Begins start e := by
  unfold Collation.lastOf at h
  dsimp only at h
  split at h
  · obtain ⟨hmem, hhit, -⟩ := hasc.getLast?_filter h
    exact ⟨hmem, (starts_padded hpadded hstart e.key).mp hhit⟩
  · rcases Option.or_eq_some_iff.mp h with h | ⟨-, h⟩
    · obtain ⟨hmem, hhit, -⟩ := hasc.find? h
      exact ⟨hmem, (starts_padded hpadded hstart e.key).mp
        (Collation.starts_of_eq (hkeys e hmem) (Std.OrientedCmp.eq_symm (beq_iff_eq.mp hhit)))⟩
    · obtain ⟨hmem, hhit, -⟩ := hasc.getLast?_filter h
      exact ⟨hmem, (starts_padded hpadded hstart e.key).mp hhit⟩

/-- The move lands on the last entry that has the start. -/
theorem last_of_lastOf (hasc : t.Ascending es) (hkeys : ∀ a ∈ es, a.key.length = padded.length)
    (hcrowded : ¬t.Crowded start es) (h : t.collation.lastOf padded start.length es = some e)
    (ha : a ∈ es) (hbegins : t.Begins start a) : a = e ∨ t.precedes a e := by
  have hhit := (starts_padded hpadded hstart a.key).mpr hbegins
  unfold Collation.lastOf at h
  dsimp only at h
  split at h
  · exact (hasc.getLast?_filter h).2.2 a ha hhit
  · next habove =>
    rcases Option.or_eq_some_iff.mp h with h | ⟨-, h⟩
    · obtain ⟨hmem, heq, -⟩ := hasc.find? h
      have hhighest := Collation.leastAbove?_eq_none habove
      rw [padded_eq hpadded hstart, List.take_left] at hhighest
      have htop := (tops_iff hpadded hstart hhighest).mp (beq_iff_eq.mp heq)
      -- the entry has the highest key: others that have the start are below it, or share the key
      have hle := Collation.isLE_of_starts (hkeys a ha) (drop_padded hpadded hstart) hhit
      cases hcompare : t.collation.compare a.key padded with
      | gt => simp [hcompare] at hle
      | lt =>
        have hlt := Std.TransCmp.lt_of_lt_of_eq hcompare (beq_iff_eq.mp heq)
        refine .inr (precedes_iff.mpr ⟨Entry.compare_lt_of_key_lt hlt, fun _ heq => ?_⟩)
        cases heq.symm.trans hlt
      | eq =>
        refine .inl (Classical.byContradiction fun hne => ?_)
        have htop' := (tops_iff hpadded hstart hhighest).mp (Std.OrientedCmp.eq_symm hcompare)
        cases hduplicates : t.duplicates with
        | true => exact hcrowded ⟨hduplicates, hhighest, a, ha, e, hmem, hne, htop', htop⟩
        | false =>
          exact hne (hasc.eq_of_key hduplicates ha hmem
            (Std.TransCmp.eq_trans hcompare (beq_iff_eq.mp heq)))
    · exact (hasc.getLast?_filter h).2.2 a ha hhit

/-- Of several entries of the highest key, the move lands on the first one. -/
theorem first_of_lastOf (hasc : t.Ascending es) (hcrowded : t.Crowded start es)
    (h : t.collation.lastOf padded start.length es = some e) :
    t.Tops e ∧ ∀ a ∈ es, t.Tops a → a = e ∨ t.precedes e a := by
  have habove : t.collation.leastAbove? padded start.length = none := by
    rw [Collation.leastAbove?_eq_none_iff, padded_eq hpadded hstart, List.take_left]
    exact hcrowded.highest
  have htops : ∀ a, t.collation.compare padded a.key = .eq ↔ t.Tops a := fun a =>
    tops_iff hpadded hstart hcrowded.highest
  simp only [Collation.lastOf, habove] at h
  rcases Option.or_eq_some_iff.mp h with h | ⟨hnone, -⟩
  · obtain ⟨-, hhit, hfirst⟩ := hasc.find? h
    refine ⟨(htops e).mp (beq_iff_eq.mp hhit), fun a ha htop => hfirst a ha ?_⟩
    exact beq_iff_eq.mpr ((htops a).mpr htop)
  · obtain ⟨a, ha, -, -, -, htop, -⟩ := hcrowded.several
    exact absurd (beq_iff_eq.mpr ((htops a).mpr htop)) (List.find?_eq_none.mp hnone a ha)

end Padded

example : Collation.binary.lastOf [0xFF] 0 [⟨[0x41], 3⟩, ⟨[0xFF], 1⟩, ⟨[0xFF], 2⟩] =
    some ⟨[0xFF], 1⟩ := by decide

/-! ## Next to a start -/

section Missed

variable {padded : Bytes} (hpadded : padded = Bytes.resize start t.layout.keyLength t.collation.highest)
  (hstart : start.length ≤ t.layout.keyLength)
include hpadded hstart

/-- If no entry has the start, those above the padded start are those above all keys that have
it. -/
theorem exceeds_iff (hkeys : ∀ a ∈ es, a.key.length = padded.length) {record : Nat}
    (hnone : ∀ a ∈ es, ¬t.Begins start a) (ha : a ∈ es) :
    Entry.compare t.collation true ⟨padded, record⟩ a = .lt ↔ t.Exceeds start a := by
  have hlength : padded.length = t.layout.keyLength := length_padded hpadded
  have hmiss : t.collation.compare padded a.key ≠ .eq := fun heq => by
    refine hnone a ha ((starts_padded hpadded hstart a.key).mp ?_)
    exact Collation.starts_of_eq (hkeys a ha) (Std.OrientedCmp.eq_symm heq)
  have hkey : Entry.compare t.collation true ⟨padded, record⟩ a = t.collation.compare padded a.key := by
    have hloose := Entry.compare_loose t.collation ⟨padded, 0⟩ a
    refine Eq.trans (@compare_parked record t false ⟨padded, 0⟩ a ?_ nofun) hloose
    rwa [hloose]
  rw [hkey]
  constructor
  · intro hlt key hkeyLength hbegins
    refine Std.TransCmp.lt_of_isLE_of_lt ?_ hlt
    exact Collation.isLE_of_starts (hkeyLength.trans hlength.symm) (drop_padded hpadded hstart)
      ((starts_padded hpadded hstart key).mpr hbegins)
  · intro hexceeds
    refine hexceeds padded hlength ((starts_padded hpadded hstart padded).mp ?_)
    exact Collation.starts_iff.mpr Std.ReflCmp.compare_self

end Missed

end Tree

namespace Index

variable {ix : Index} {p : Plan} {w : Workspace}

/-! ## The move -/

/-- What a move to the last entry with a start comes to on a file as planned. -/
structure FindingLast (ix : Index) (p : Plan) (w : Workspace) (start : Bytes)
    (r : Except Error Answer) (σ : Index × Workspace) : Prop where
  handle : σ.1 = { ix with cursor := σ.1.cursor }
  asPlanned : σ.1.AsPlanned p σ.2
  result : r = .ok (.state σ.1.cursor.state)
  onKey : σ.1.cursor.state = .onKey ↔ ∃ a ∈ p.entries, ix.tree.Begins start a
  /-- An entry that the move lands on has the start. It is the last one that has it, or the first
  one of the highest key. -/
  landed : σ.1.cursor.state = .onKey → ∃ e ∈ p.entries, ix.tree.Begins start e ∧
    σ.1.cursor.current = some e ∧ σ.2.cell ix.cell = e.record ∧
    (¬ix.tree.Crowded start p.entries →
      ∀ a ∈ p.entries, ix.tree.Begins start a → a = e ∨ ix.tree.precedes a e) ∧
    (ix.tree.Crowded start p.entries →
      ix.tree.Tops e ∧ ∀ a ∈ p.entries, ix.tree.Tops a → a = e ∨ ix.tree.precedes e a)
  missed : σ.1.cursor.state ≠ .onKey →
    σ.1.cursor.state = .between ∧ σ.2.cell ix.cell = w.cell ix.cell
  /-- Next to the keys with the start, the first entry above all of them is next. -/
  next_missed : σ.1.cursor.state ≠ .onKey → ∃ found : Option Entry,
    Ends Call.next.run σ (σ.1.Stepped p σ.2 found .afterLast) ∧
    (∀ a, found = some a ↔ a ∈ p.entries ∧ ix.tree.Exceeds start a ∧
      ∀ b ∈ p.entries, ix.tree.Exceeds start b →
        b = a ∨ Entry.compare ix.tree.collation true a b = .lt)

/-- A move to the last entry with a start stands on one that has it, or next to all keys that
would. -/
theorem AsPlanned.findingLast (h : ix.AsPlanned p w) (hlevels : p.levels ≤ maxLevels + 1)
    {start : Bytes}
    (hstart : start.length ≤ ix.tree.layout.keyLength) :
    Ends (Call.findLast start).run (ix, w) (ix.FindingLast p w start) := by
  obtain ⟨padded, hpadded⟩ : ∃ padded,
    padded = Bytes.resize start ix.tree.layout.keyLength ix.tree.collation.highest := ⟨_, rfl⟩
  have hkey : ix.keyOf start ix.tree.collation.highest = .ok padded := by
    unfold keyOf Key.normalize
    rw [if_neg (by simp; omega), hpadded]
  have hlength : padded.length = ix.tree.layout.keyLength := Tree.length_padded hpadded
  have hkeys : ∀ a ∈ p.entries, a.key.length = padded.length := by
    obtain ⟨v, -, hp⟩ := h.keeps.finds
    obtain ⟨c, -, hholds⟩ := hp.board
    exact fun a ha => (hholds.storable a ha).1.trans hlength.symm
  have hcourse : (Call.findLast start).course ix (w.cell ix.cell) =
      .asks (.move (ix.tree.findLast padded start.length)) := by
    simp only [Call.course, hkey, Nat.min_eq_left hstart]
    rfl
  refine (h.move_ends _ hcourse (fun c hc => Tree.gives_findLast hc hlevels h.ascending hkeys
    (by omega) (Tree.drop_padded hpadded hstart)) fun c' hc' => ?_).mono ?_
  · split at hc'
    · exact hc'.2.2
    · exact hc' ▸ Cursor.aligned_park _ _
  rintro r σ ⟨hhandle, hlanded, hr, hrecord, hplanned⟩
  cases hlast : ix.tree.collation.lastOf padded start.length p.entries with
  | some e =>
    rw [hlast] at hlanded
    obtain ⟨hstate, hcurrent, -⟩ := hlanded
    obtain ⟨hmem, hbegins⟩ := Tree.begins_of_lastOf hpadded hstart h.ascending hkeys hlast
    refine ⟨hhandle, hplanned, hr, iff_of_true hstate ⟨e, hmem, hbegins⟩, fun _ => ?_,
      absurd hstate, absurd hstate⟩
    refine ⟨e, hmem, hbegins, hcurrent, ?_, fun hcrowded a => ?_, fun hcrowded => ?_⟩
    · rw [hrecord, Cursor.record?, if_pos hstate, hcurrent]
      rfl
    · exact Tree.last_of_lastOf hpadded hstart h.ascending hkeys hcrowded hlast
    · exact Tree.first_of_lastOf hpadded hstart h.ascending hcrowded hlast
  | none =>
    rw [hlast] at hlanded
    have hstate : σ.1.cursor.state = .between := by rw [hlanded]; rfl
    have hnone : ∀ a ∈ p.entries, ¬ix.tree.Begins start a := fun a ha hbegins => by
      have hmiss := Collation.lastOf_eq_none hlast ha
      rw [(Tree.starts_padded hpadded hstart a.key).mpr hbegins] at hmiss
      cases hmiss
    have hoff : σ.1.cursor.state ≠ .onKey := by rw [hstate]; decide
    have hno : ¬∃ a ∈ p.entries, ix.tree.Begins start a := by
      rintro ⟨a, ha, hbegins⟩
      exact hnone a ha hbegins
    refine ⟨hhandle, hplanned, hr, iff_of_false hoff hno, fun hon => absurd hon hoff,
      fun _ => ⟨hstate, ?_⟩, fun _ => ⟨_, hplanned.next_ends hlevels, ?_⟩⟩
    · rw [hrecord, Cursor.record?, if_neg hoff]
      rfl
    · have htree : σ.1.tree = ix.tree := (congrArg Index.tree hhandle).trans rfl
      intro a
      have hahead : σ.1.cursor.ahead σ.1.tree p.entries =
          ix.tree.above ⟨padded, ix.tree.layout.maxRecord⟩ p.entries := by
        rw [htree, hlanded]
        rfl
      rw [hahead, Tree.head?_above h.ascending]
      unfold Tree.NextAbove
      refine and_congr_right fun ha => ?_
      rw [Tree.exceeds_iff hpadded hstart hkeys hnone ha]
      refine and_congr_right fun _ => forall₂_congr fun b hb => ?_
      rw [Tree.exceeds_iff hpadded hstart hkeys hnone hb]

/-- Of a key that a separator and a leaf have the leaf has the last entry. -/
theorem findingLast_sample : ∃ w, (sampleIndex .exclusive).AsPlanned Tree.samplePlan w ∧
    Ends (Call.findLast [0x42]).run (sampleIndex .exclusive, w) fun r σ =>
      (sampleIndex .exclusive).FindingLast Tree.samplePlan w [0x42] r σ ∧
        r = .ok (.state .onKey) ∧ σ.2.cell 0 = 4 := by
  obtain ⟨w, hplanned⟩ : ∃ w, (sampleIndex .exclusive).AsPlanned Tree.samplePlan w :=
    ⟨_, asPlanned_sample⟩
  refine ⟨w, hplanned, (hplanned.findingLast (by decide) (by decide)).mono fun r σ h => ?_⟩
  have hstate := h.onKey.mpr ⟨⟨[0x42], 4⟩, by decide, rfl⟩
  obtain ⟨e, he, hbegins, -, hrecord, hlast, -⟩ := h.landed hstate
  have hrank : Tree.sample.collation.weight 0x42 ≠
      Tree.sample.collation.weight Tree.sample.collation.highest := by decide +kernel
  have hlast := hlast (fun hcrowded => ?_) ⟨[0x42], 4⟩ (by decide) rfl
  · have hfirst : ∀ e ∈ Tree.samplePlan.entries, (⟨[0x42], 4⟩ : Entry) = e ∨
        Tree.sample.precedes ⟨[0x42], 4⟩ e → Tree.sample.collation.compare (e.key.take 1) [0x42] = .eq →
          e.record = 4 := by decide
    exact ⟨h, hstate ▸ h.result, hrecord.trans (hfirst e he hlast hbegins)⟩
  · exact hrank (hcrowded.highest 0x42 List.mem_cons_self)

end Index

end PagedIndex
