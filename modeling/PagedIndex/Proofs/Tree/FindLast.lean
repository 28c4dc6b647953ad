import PagedIndex.Proofs.Starts
import PagedIndex.Proofs.Tree.Moves

/-!
# The last key with a start

A move to the last key with a start looks for the least key above the start, and goes one entry
back. Where the start is of highest bytes there is no such key; then it looks for the highest key
that has the start. If entries of that key are there it lands on the first of them.

## Main definitions

* `Collation.lastOf` — the entry that the move lands on.

## Main statements

* `Tree.gives_findLast` — the move lands there, or next to the highest key with the start.
* `Collation.lastOf_eq_none` — it lands nowhere only if no entry has the start.
-/

namespace PagedIndex

/-- The last entry with a start, but of the highest key that has it the first entry if there is no
key above the start. -/
def Collation.lastOf (c : Collation) (padded : Bytes) (length : Nat) (es : List Entry) :
    Option Entry :=
  let last := (es.filter fun a => c.starts length padded a.key).getLast?
  match c.leastAbove? padded length with
  | some _ => last
  | none => (es.find? fun a => c.compare padded a.key == .eq).or last

theorem Collation.lastOf_eq_none {c : Collation} {padded : Bytes} {length : Nat} {es : List Entry}
    (h : c.lastOf padded length es = none) {a : Entry} (ha : a ∈ es) :
    c.starts length padded a.key = false := by
  have hlast : (es.filter fun a => c.starts length padded a.key).getLast? = none := by
    unfold lastOf at h
    split at h
    · exact h
    · exact (Option.or_eq_none_iff.mp h).2
  rw [List.getLast?_eq_none_iff, List.filter_eq_nil_iff] at hlast
  exact Bool.eq_false_iff.mpr (hlast a ha)

namespace Tree

open Program

variable {t : Tree} {c : Board} {p : Plan} {d : Descent} {padded : Bytes} {length : Nat}
  {es front back : List Entry} {a e : Entry}

/-- Where the entries with a start are at the end of those in front, the last entry there tells
which is the last of them. -/
theorem getLast?_filter_starts {hit : Entry → Bool} (hasc : t.Ascending front)
    (hup : ∀ a ∈ front, ∀ b ∈ front, t.precedes a b → hit a = true → hit b = true)
    (hback : ∀ a ∈ back, hit a = false) :
    ((front ++ back).filter hit).getLast? = front.getLast?.filter hit := by
  have hnil : back.filter hit = [] :=
    List.filter_eq_nil_iff.mpr fun a ha => Bool.eq_false_iff.mp (hback a ha)
  rw [List.filter_append, hnil, List.append_nil]
  rcases List.eq_nil_or_concat front with rfl | ⟨front, z, rfl⟩
  · rfl
  · rw [List.concat_eq_append, List.filter_append, List.getLast?_concat]
    cases hz : hit z with
    | true => simp [hz, Option.filter]
    | false =>
      have hz' : ∀ a ∈ front, t.precedes a z := fun a ha => by
        rw [List.concat_eq_append] at hasc
        exact (List.pairwise_append.mp hasc).2.2 a ha z List.mem_cons_self
      have hfront : front.filter hit = [] := List.filter_eq_nil_iff.mpr fun a ha hhit => by
        have hup := hup a (by simp [ha]) z (by simp) (hz' a ha) hhit
        cases hz.symm.trans hup
      simp [hfront, hz, Option.filter]

/-- What is in front of the place where the move looks tells where it lands. -/
theorem lastOf_of_front (hkeys : ∀ a ∈ front ++ back, a.key.length = padded.length)
    (hpad : ∀ x ∈ padded.drop length, t.collation.weight x = t.collation.weight t.collation.highest)
    (hasc : t.Ascending (front ++ back)) {above : Option Bytes}
    (habove : t.collation.leastAbove? padded length = above)
    (hless : ∀ a ∈ front, t.collation.compare (above.getD padded) a.key = .gt)
    (hmore : ∀ a ∈ back, t.collation.compare (above.getD padded) a.key ≠ .gt)
    (hhit : above = none → ∀ a ∈ back, t.collation.compare padded a.key ≠ .eq) :
    t.collation.lastOf padded length (front ++ back) =
      front.getLast?.filter fun a => t.collation.starts length padded a.key := by
  have hkey : ∀ {a b}, t.precedes a b → (t.collation.compare a.key b.key).isLE := fun h =>
    Entry.key_isLE_of_compare_lt (precedes_iff.mp h).1
  have hfront := (List.pairwise_append.mp hasc).1
  have hmem : ∀ {a}, a ∈ front → a.key.length = padded.length := fun ha =>
    hkeys _ (List.mem_append_left _ ha)
  have hmem' : ∀ {a}, a ∈ back → a.key.length = padded.length := fun ha =>
    hkeys _ (List.mem_append_right _ ha)
  unfold Collation.lastOf
  rw [habove]
  cases above with
  | some above =>
    refine getLast?_filter_starts hfront (fun a ha b hb hab hstart => ?_) fun a ha => ?_
    · exact Collation.starts_of_lt (hmem ha) (hmem hb) habove hstart (hkey hab)
        (Std.OrientedCmp.lt_of_gt (hless b hb))
    · refine Bool.eq_false_iff.mpr fun hstart => hmore a ha ?_
      exact Std.OrientedCmp.gt_of_lt (Collation.lt_of_starts (hmem' ha) habove hstart)
  | none =>
    have hnone : (front ++ back).find? (fun a => t.collation.compare padded a.key == .eq) = none := by
      refine List.find?_eq_none.mpr fun a ha => ?_
      rcases List.mem_append.mp ha with ha | ha
      · rw [show t.collation.compare padded a.key = .gt from hless a ha]
        decide
      · simpa using hhit rfl a ha
    -- a key of highest bytes is not below any other
    have hhighest : ∀ x ∈ padded, t.collation.weight x = t.collation.weight t.collation.highest := by
      intro x hx
      rw [← padded.take_append_drop length] at hx
      rcases List.mem_append.mp hx with hx | hx
      · exact Collation.leastAbove?_eq_none habove x hx
      · exact hpad x hx
    have hempty : back = [] := by
      refine List.eq_nil_iff_forall_not_mem.mpr fun a ha => hhit rfl a ha ?_
      have hle := Collation.isLE_of_highest hhighest (hmem' ha)
      have hge : (t.collation.compare padded a.key).isLE :=
        Ordering.isLE_iff_ne_gt.mpr (hmore a ha)
      exact Std.OrientedCmp.isLE_antisymm hge hle
    simp only [hnone, Option.none_or]
    rw [hempty]
    refine getLast?_filter_starts hfront (fun a ha b hb hab hstart => ?_) nofun
    exact Collation.starts_of_highest (hmem ha) (hmem hb) habove hstart (hkey hab)

/-! ## The move -/

/-- The end of the move: an entry with the start, or none. -/
theorem gives_land_start {missed : Cursor} (hc : c.Closed t.layout) (hd : d.AtLast c es) :
    Gives t.layout (do
      if d.state = .onKey then
        let e ← t.entryAt d
        if t.collation.compare (e.key.take length) (padded.take length) = .eq then
          return Cursor.land e d.block
        else return missed
      else return missed) c fun c' =>
        match es.getLast?.filter fun a => t.collation.starts length padded a.key with
        | some e => c'.state = .onKey ∧ c'.current = some e ∧ c'.Aligned t.layout
        | none => c' = missed := by
  unfold Descent.AtLast at hd
  split at hd
  · next hnone =>
    rw [if_neg (by simp [hd]), hnone]
    exact gives_pure rfl
  · next z hsome =>
    obtain ⟨hstate, hon⟩ := hd
    rw [if_pos hstate, hsome]
    refine (gives_entryAt hon).andThen ?_
    rintro _ rfl
    simp only [Option.filter, Collation.starts_iff]
    split
    · refine gives_pure ⟨rfl, rfl, ?_⟩
      rintro pos hpos
      cases hpos
      exact hc.aligned (.inr hon.isSome)
    · exact gives_pure rfl

/-- The move lands on the last entry with a start, or next to the highest key that has it. -/
theorem gives_findLast (hp : p.Holds t.layout c) (hlevels : p.levels ≤ maxLevels + 1)
    (hasc : t.Ascending p.entries) (hkeys : ∀ a ∈ p.entries, a.key.length = padded.length)
    (hlength : length ≤ padded.length)
    (hpad : ∀ x ∈ padded.drop length,
      t.collation.weight x = t.collation.weight t.collation.highest) :
    Gives t.layout (t.findLast padded length) c fun c' =>
      match t.collation.lastOf padded length p.entries with
      | some e => c'.state = .onKey ∧ c'.current = some e ∧ c'.Aligned t.layout
      | none => c' = Cursor.park .between ⟨padded, t.layout.maxRecord⟩ := by
  have hc := hp.closed
  unfold findLast
  rw [Nat.min_eq_left hlength]
  obtain ⟨above, habove⟩ : ∃ above, t.collation.leastAbove? padded length = above := ⟨_, rfl⟩
  simp only [habove]
  refine (gives_locate hp hlevels hasc ⟨above.getD padded, 0⟩ false).andThen ?_
  simp only [Entry.compare_loose]
  rintro d (⟨hnil, rfl⟩ | ⟨hne, front, back, hless, ⟨e, hentries, hhit, hd⟩ | ⟨hentries, hgreater, hd⟩⟩)
  · rw [if_pos (by rfl), hnil]
    have hnone : t.collation.lastOf padded length [] = none := by
      unfold Collation.lastOf
      split <;> rfl
    rw [hnone]
    exact gives_pure rfl
  · have hblock := BlockPos.isNull_eq_false ((hc.whole d.block).mp hd.on.isSome).1
    rw [if_neg (by simp [hblock, hd.state])]
    rw [hentries] at hasc hkeys ⊢
    cases above with
    | some above =>
      rw [if_pos (by simp), lastOf_of_front hkeys hpad hasc habove hless ?_ nofun]
      · exact hd.predecessor.andThen fun d' hd' => gives_land_start hc hd'
      · intro a ha hgt
        have hprecedes := (List.pairwise_append.mp hasc).2.1
        rcases List.mem_cons.mp ha with rfl | ha
        · cases hhit.symm.trans hgt
        · have hgt' := @gt_of_precedes t false ⟨above, 0⟩ e a
            (List.rel_of_pairwise_cons hprecedes ha) ((Entry.compare_loose _ _ _).trans hgt)
          cases hhit.symm.trans ((Entry.compare_loose _ _ _).symm.trans hgt')
    | none =>
      rw [if_neg (by simp [hd.state])]
      have hfound : t.collation.lastOf padded length (front ++ e :: back) = some e := by
        have hfirst : (front ++ e :: back).find? (fun a => t.collation.compare padded a.key == .eq) =
            some e := by
          refine List.find?_eq_some_iff_append.mpr ⟨by simpa using hhit, front, back, rfl, ?_⟩
          intro a ha
          rw [show t.collation.compare padded a.key = .gt from hless a ha]
          rfl
        unfold Collation.lastOf
        simp only [habove, hfirst, Option.some_or]
      have hstart : t.collation.starts length padded e.key = true :=
        Collation.starts_of_eq (hkeys e (by simp)) (Std.OrientedCmp.eq_symm hhit)
      have hland := @gives_land_start t c d padded length [e]
        (Cursor.park .between ⟨padded, t.layout.maxRecord⟩) hc ⟨hd.state, hd.on⟩
      refine (gives_pure (P := fun d' => d' = d) rfl).andThen ?_
      rintro _ rfl
      rw [hfound]
      simpa [hstart, Option.filter] using hland
  · have hblock := BlockPos.isNull_eq_false ((hc.whole d.block).mp hd.block).1
    rw [hentries] at hasc hkeys ⊢
    rw [lastOf_of_front hkeys hpad hasc habove hless (fun a ha hgt => ?_) fun hnone a ha heq => ?_]
    · split
      · next hfirst =>
        have hnil : front = [] := by simpa [hblock, hd.first] using hfirst
        rw [hnil]
        exact gives_pure rfl
      · rw [if_pos (by simp [hd.state])]
        exact hd.predecessor.andThen fun d' hd' => gives_land_start hc hd'
    · cases hgt.symm.trans (hgreater a ha)
    · subst hnone
      cases heq.symm.trans (hgreater a ha)

end Tree

end PagedIndex
