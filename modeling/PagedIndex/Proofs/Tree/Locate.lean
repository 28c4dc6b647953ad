import PagedIndex.Proofs.Tree.Plan
import PagedIndex.Tree.Search

/-!
# Where a search ends

## Main definitions

* `Tree.SearchEnds` — a place of a tree, for a target.

## Main statements

* `Tree.acts_locate` — a search ends at the first entry that is a hit, or where it would be.
-/

namespace PagedIndex

/-- A place at the separator that follows the leaf at the end of a way. -/
def Way.Continues (w : Way) (d : Descent) : Prop :=
  ∃ inner f outer s right, w = inner ++ f :: outer ∧ (∀ g ∈ inner, g.right = []) ∧
    f.right = s :: right ∧ d.onBranch = true ∧ d.block = f.pos ∧ d.index = f.left.length

namespace Fork

variable {f : Fork}

theorem front_eq_nil_iff : f.front = [] ↔ f.left = [] := by
  cases h : f.left <;> simp [front, h]

theorem back_eq_nil_iff : f.back = [] ↔ f.right = [] := by
  cases h : f.right <;> simp [back, h]

end Fork

namespace Tree

variable {t : Tree} {target : Entry} {exact : Bool}

/-! ## One block -/

theorem state_eq_onKey {s : Scan} {size : Nat} (h : s.state size = .onKey) : s.found = true := by
  unfold Scan.state at h
  grind

theorem state_eq_afterLast {s : Scan} {size : Nat} (h : s.state size = .afterLast) :
    s.index = size := by
  unfold Scan.state at h
  grind

/-- The state of a search that ends here and misses. -/
theorem state_of_missed {s : Scan} {front back : Nat} (hfound : s.found = false)
    (hindex : s.index = front) (hsize : front + back ≠ 0) :
    (s.state (front + back) = .beforeFirst ↔ front = 0) ∧
      (s.state (front + back) = .afterLast ↔ back = 0) := by
  unfold Scan.state
  grind

/-- Where a target stands among the entries of a block. -/
structure Splits (t : Tree) (target : Entry) (exact : Bool) (front back : List Entry) (s : Scan) :
    Prop where
  index : s.index = front.length
  less : ∀ a ∈ front, Entry.compare t.collation exact target a = .gt
  found : s.found = true → ∃ a rest, back = a :: rest ∧
    Entry.compare t.collation exact target a = .eq
  missed : s.found = false → ∀ a ∈ back.head?, Entry.compare t.collation exact target a = .lt
  sameKey : s.sameKey = true ↔
    ∃ a ∈ front ++ back.head?.toList, t.collation.compare target.key a.key = .eq

theorem exists_splits (t : Tree) (target : Entry) (exact : Bool) (es : List Entry) :
    ∃ front back, es = front ++ back ∧ Splits t target exact front back (t.scan target exact es) := by
  induction es with
  | nil => exact ⟨[], [], rfl, rfl, nofun, nofun, nofun, by simp [scan]⟩
  | cons e rest ih =>
    obtain ⟨front, back, rfl, hs⟩ := ih
    have hskip : ∀ {k : Bool}, Entry.compare t.collation exact target e = .gt →
        (k = true ↔ t.collation.compare target.key e.key = .eq) →
        Splits t target exact (e :: front) back ((t.scan target exact (front ++ back)).shift k) := by
      intro k hgt hk
      refine ⟨congrArg (· + 1) hs.index, List.forall_mem_cons.mpr ⟨hgt, hs.less⟩, hs.found,
        hs.missed, ?_⟩
      have := hs.sameKey
      simp only [Scan.shift, Bool.or_eq_true, this, hk]
      grind
    have hcmp := Entry.compare_eq_then t.collation exact target e
    unfold scan
    cases hkey : t.collation.compare target.key e.key with
    | lt =>
      rw [hkey] at hcmp
      exact ⟨[], _, rfl, rfl, nofun, nofun, fun _ => by simp [hcmp], by simp [hkey]⟩
    | gt =>
      rw [hkey] at hcmp
      exact ⟨e :: front, back, rfl, hskip hcmp (by simp [hkey])⟩
    | eq =>
      rw [hkey, Ordering.eq_then] at hcmp
      cases exact with
      | false =>
        exact ⟨[], _, rfl, rfl, nofun, fun _ => ⟨_, _, rfl, hcmp⟩, nofun, by simp [hkey]⟩
      | true =>
        cases hrecord : Ord.compare target.record e.record with
        | gt => exact ⟨e :: front, back, rfl, hskip (hcmp.trans hrecord) (by simp [hkey])⟩
        | eq =>
          exact ⟨[], _, rfl, rfl, nofun, fun _ => ⟨_, _, rfl, hcmp.trans hrecord⟩, nofun,
            by simp [hkey]⟩
        | lt =>
          exact ⟨[], _, rfl, rfl, nofun, nofun, fun _ => by simp [hcmp, hrecord], by simp [hkey]⟩

section Behind

variable {es : List Entry} {a : Entry}

/-- All entries are greater than a target that is less than the first one. -/
theorem lt_of_head (hasc : t.Ascending es)
    (h : ∀ b ∈ es.head?, Entry.compare t.collation exact target b = .lt) (ha : a ∈ es) :
    Entry.compare t.collation exact target a = .lt := by
  cases es with
  | nil => cases ha
  | cons b es =>
    have hb := h b rfl
    rcases List.mem_cons.mp ha with rfl | ha
    · exact hb
    · exact lt_of_lt_of_precedes (List.rel_of_pairwise_cons hasc ha) hb

/-- Where keys do not repeat, only the first one of them may have the same key. -/
theorem exists_sameKey_head (hd : t.duplicates = false) (hasc : t.Ascending es)
    (h : ∀ b ∈ es.head?, Entry.compare t.collation exact target b = .lt) :
    (∃ b ∈ es.head?.toList, t.collation.compare target.key b.key = .eq) ↔
      ∃ b ∈ es, t.collation.compare target.key b.key = .eq := by
  cases es with
  | nil => simp
  | cons b es =>
    have hb := h b rfl
    constructor
    · rintro ⟨a, ha, hkey⟩
      exact ⟨a, by simp_all, hkey⟩
    · rintro ⟨a, ha, hkey⟩
      rcases List.mem_cons.mp ha with rfl | ha
      · exact ⟨a, by simp, hkey⟩
      · have hlt := key_lt_of_precedes hd (List.rel_of_pairwise_cons hasc ha)
        have hgt : Entry.compare t.collation exact b target = .lt :=
          Entry.compare_lt_of_key_lt
            (Std.TransCmp.lt_of_lt_of_eq hlt (Std.OrientedCmp.eq_symm hkey))
        rw [Std.OrientedCmp.gt_of_lt hgt] at hb
        cases hb

end Behind

/-! ## One fork -/

section Fork

variable {f : Fork} {a : Entry}

/-- All in front of a child is less than a target if the separators there are. -/
theorem front_gt (hasc : t.Ascending f.front)
    (h : ∀ b ∈ f.left.map Prod.snd, Entry.compare t.collation exact target b = .gt)
    (ha : a ∈ f.front) : Entry.compare t.collation exact target a = .gt := by
  obtain ⟨s, hs, ha⟩ := List.mem_flatMap.mp ha
  have hsep := h s.2 (List.mem_map_of_mem hs)
  rcases List.mem_append.mp ha with ha | ha
  · have hblock := (List.pairwise_flatMap.mp hasc).1 s hs
    exact gt_of_precedes ((List.pairwise_append.mp hblock).2.2 a ha s.2 (by simp)) hsep
  · rwa [List.mem_singleton.mp ha]

theorem head_back : f.back.head? = (f.right.map Prod.fst).head? := by
  unfold Fork.back
  cases f.right <;> rfl

/-- Where keys do not repeat, the separators in front of a child tell whether a key is there. -/
theorem exists_sameKey_front (hd : t.duplicates = false) (hasc : t.Ascending f.front)
    (h : ∀ b ∈ f.left.map Prod.snd, Entry.compare t.collation exact target b = .gt) :
    (∃ b ∈ f.left.map Prod.snd, t.collation.compare target.key b.key = .eq) ↔
      ∃ b ∈ f.front, t.collation.compare target.key b.key = .eq := by
  constructor
  · rintro ⟨b, hb, hkey⟩
    obtain ⟨s, hs, rfl⟩ := List.mem_map.mp hb
    exact ⟨s.2, List.mem_flatMap.mpr ⟨s, hs, by simp⟩, hkey⟩
  · rintro ⟨b, hb, hkey⟩
    obtain ⟨s, hs, hb⟩ := List.mem_flatMap.mp hb
    rcases List.mem_append.mp hb with hb | hb
    · -- The separator behind an entry of the same key would be greater than the target.
      have hblock := (List.pairwise_flatMap.mp hasc).1 s hs
      have hlt := key_lt_of_precedes hd ((List.pairwise_append.mp hblock).2.2 b hb s.2 (by simp))
      have hgt := h s.2 (List.mem_map_of_mem hs)
      rw [Entry.compare_lt_of_key_lt (Std.TransCmp.lt_of_eq_of_lt hkey hlt)] at hgt
      cases hgt
    · rw [List.mem_singleton.mp hb] at hkey
      exact ⟨s.2, List.mem_map_of_mem hs, hkey⟩

end Fork

/-! ## Places -/

section Place

variable {c : Board} {depth : Nat} {x : Subtree} {w : Way} {pos : BlockPos} {d : Descent}
  {trail : Trail} {es : List Entry}

/-- Where a search in the tree `x` may end: at an entry that is a hit, with all entries in front of
it less than the target, or in a leaf where the target would be. If keys repeat that may not, it may
end at a separator that is not the first hit. -/
inductive SearchEnds (t : Tree) (c : Board) (target : Entry) (exact : Bool) (x : Subtree)
    (d : Descent) :
    Prop
  | leaf {w : Way} {pos : BlockPos} {front back : List Entry} {e : Entry}
      (hx : Way.regrow w (.leaf pos (front ++ e :: back)) = x)
      (hw : Way.Leads t.layout c 0 w pos)
      (honBoard : (Subtree.leaf pos (front ++ e :: back)).OnBoard t.layout c.cells 0)
      (hless : ∀ a ∈ Way.front w ++ front, Entry.compare t.collation exact target a = .gt)
      (hhit : Entry.compare t.collation exact target e = .eq)
      (hstate : d.state = .onKey) (hbranch : d.onBranch = false) (hpath : d.path = Way.steps w)
      (hblock : d.block = pos) (hindex : d.index = front.length) :
      SearchEnds t c target exact x d
  | branch {depth : Nat} {f : Fork} {w : Way} {y z : Subtree} {e : Entry}
    {right : List (Entry × Subtree)}
      (hx : Way.regrow (f :: w) y = x) (hw : Way.Leads t.layout c depth (f :: w) y.pos)
      (honBoard : y.OnBoard t.layout c.cells depth) (hfull : y.Full)
        (hright : f.right = (e, z) :: right)
      (hless : ∀ a ∈ Way.front (f :: w), Entry.compare t.collation exact target a = .gt)
      (hbefore : exact = true ∨ t.Ascending x.entries →
        ∀ a ∈ y.entries, Entry.compare t.collation exact target a = .gt)
      (hhit : Entry.compare t.collation exact target e = .eq)
      (hstate : d.state = .onKey) (hbranch : d.onBranch = true)
      (hpath : d.path = Way.steps (f :: w)) (hblock : d.block = f.pos)
      (hindex : d.index = f.left.length) :
      SearchEnds t c target exact x d
  | missing {w : Way} {pos : BlockPos} {front back : List Entry}
      (hx : Way.regrow w (.leaf pos (front ++ back)) = x) (hw : Way.Leads t.layout c 0 w pos)
      (honBoard : (Subtree.leaf pos (front ++ back)).OnBoard t.layout c.cells 0)
      (hfull : (Subtree.leaf pos (front ++ back)).Full)
      (hless : ∀ a ∈ Way.front w ++ front, Entry.compare t.collation exact target a = .gt)
      (hgreater : ∀ a ∈ back ++ Way.back w, Entry.compare t.collation exact target a = .lt)
      (hstate : d.state ≠ .onKey) (hpath : d.path = Way.steps w)
      (hplace : (d.leafEnd = some pos ∧ back = []) ∨
        (d.leafEnd = none ∧ d.onBranch = false ∧ d.block = pos ∧ d.index = front.length))
      (hblock : (c.cells d.block).isSome)
      (hkey : exact = true → t.duplicates = false → t.Ascending x.entries →
        (d.sameKey = true ↔ ∃ a ∈ x.entries, t.collation.compare target.key a.key = .eq))
      (hfirst : d.state = .beforeFirst ↔ Way.front w ++ front = [])
      (hlast : d.state = .afterLast ↔ back ++ Way.back w = [])
      (hhere : d.leafEnd = none → back = [] → d.state = .afterLast)
      (hend : d.leafEnd ≠ none → w.Continues d) :
      SearchEnds t c target exact x d

/-- What a search knows on its way down. -/
structure Tells (t : Tree) (target : Entry) (exact : Bool) (trail : Trail) (w : Way) : Prop where
  path : trail.path = Way.steps w
  less : ∀ a ∈ Way.front w, Entry.compare t.collation exact target a = .gt
  greater : trail.fallback = [] →
    ∀ a ∈ Way.back w, Entry.compare t.collation exact target a = .lt
  /-- A separator that is a hit is the first entry behind the way. -/
  fallback : trail.fallback ≠ [] → ∃ inner f outer e y right, w = inner ++ f :: outer ∧
    (∀ g ∈ inner, g.right = []) ∧ trail.fallback = Way.steps (f :: outer) ∧
    f.right = (e, y) :: right ∧ Entry.compare t.collation exact target e = .eq
  sameKey : exact = true → t.duplicates = false → t.Ascending (Way.front w ++ Way.back w) →
    (trail.sameKey = true ↔
      ∃ a ∈ Way.front w ++ Way.back w, t.collation.compare target.key a.key = .eq)
  leftmost : trail.fallback = [] → (trail.leftmost = true ↔ Way.front w = [])
  rightmost : trail.fallback = [] → (trail.rightmost = true ↔ Way.back w = [])

/-- Behind the last entry of a leaf the place is that of the separator that follows, if there is
one. -/
theorem acts_nextSeparator (hw : Way.Leads t.layout c depth w pos)
    (hblock : (c.cells d.block).isSome) :
    Program.Acts t.layout (t.nextSeparator d (Way.steps w)) c fun r c' => c' = c ∧ ∃ d' : Descent,
      r = .ok d' ∧ d'.path = d.path ∧ d'.leafEnd = d.leafEnd ∧ d'.sameKey = d.sameKey ∧
        (c.cells d'.block).isSome ∧ (d'.state = .afterLast ∧ Way.back w = [] ∨
          d'.state = .onKey ∧ Way.back w ≠ [] ∧ w.Continues d') := by
  induction w generalizing depth pos with
  | nil => exact Program.acts_done ⟨rfl, _, rfl, rfl, rfl, rfl, hblock, .inl ⟨rfl, rfl⟩⟩
  | cons f w ih =>
    obtain ⟨hf, hw⟩ := hw
    simp only [Way.steps_cons, nextSeparator, Fork.step, Way.back_cons]
    refine (Tree.acts_branch Role.parent_ne hf.cell).bind_ok ?_
    rw [Fork.length_separators_branch]
    cases hright : f.right with
    | nil =>
      rw [if_neg (by simp), Fork.back_eq_nil_iff.mpr hright]
      refine (ih hw).mono ?_
      rintro r c' ⟨rfl, d', hr, hpath, hend, hsame, hblock, hcase⟩
      refine ⟨rfl, d', hr, hpath, hend, hsame, hblock, hcase.imp_right ?_⟩
      rintro ⟨hstate, hback, inner, g, outer, s, right, rfl, hinner, hplace⟩
      exact ⟨hstate, hback, f :: inner, g, outer, s, right, rfl,
        List.forall_mem_cons.mpr ⟨hright, hinner⟩, hplace⟩
    | cons s right =>
      rw [if_pos (by simp)]
      refine Program.acts_done ⟨rfl, _, rfl, rfl, rfl, rfl, by simp [hf.cell], .inr ⟨rfl, ?_,
        [], f, w, s, right, rfl, nofun, hright, rfl, rfl, rfl⟩⟩
      simp [Fork.back, hright]

theorem acts_successor_leafEnd (hw : Way.Leads t.layout c 0 w pos)
    (honBoard : (Subtree.leaf pos es).OnBoard t.layout c.cells 0) (hbranch : d.onBranch = false)
    (hpath : d.path = Way.steps w) (hblock : d.block = pos) (hindex : d.index = es.length) :
    Program.Acts t.layout (t.successor d) c fun r c' => c' = c ∧ ∃ d' : Descent,
      r = .ok d' ∧ d'.path = d.path ∧ d'.leafEnd = d.leafEnd ∧ d'.sameKey = d.sameKey ∧
        (c.cells d'.block).isSome ∧ (d'.state = .afterLast ∧ Way.back w = [] ∨
          d'.state = .onKey ∧ Way.back w ≠ [] ∧ w.Continues d') := by
  have hcell : c.cells pos = some (.node (.leaf es)) := honBoard.cell
  obtain ⟨state, path, block, index, onBranch, leafEnd, sameKey⟩ := d
  dsimp only at hbranch hpath hblock hindex
  subst hbranch hpath hblock hindex
  unfold successor
  rw [if_neg Bool.false_ne_true]
  refine (Tree.acts_leaf Role.current_ne hcell).bind_ok ?_
  rw [if_neg (Nat.not_lt_of_le (Nat.le_succ _))]
  exact acts_nextSeparator hw (by simp [hcell])

section Leaf

variable {front back : List Entry} {s : Scan}

/-- What is behind a missed target in its leaf is greater than it, and so is what is behind the
leaf. -/
theorem Tells.greater_leaf (h : Tells t target exact trail w) (hnone : trail.fallback = [])
    (hasc : t.loose.Ascending (Way.front w ++ (front ++ back ++ Way.back w)))
    (hmissed : ∀ b ∈ back.head?, Entry.compare t.collation exact target b = .lt) :
    ∀ a ∈ back ++ Way.back w, Entry.compare t.collation exact target a = .lt := by
  have hleaf : t.loose.Ascending back :=
    (List.pairwise_append.mp (List.pairwise_append.mp (List.pairwise_append.mp hasc).2.1).1).2.1
  intro a ha
  rcases List.mem_append.mp ha with ha | ha
  · exact lt_of_head (t := t.loose) hleaf hmissed ha
  · exact h.greater hnone a ha

/-- Where keys do not repeat, a search that missed its target has met its key if an entry has it. -/
theorem Tells.sameKey_leaf (h : Tells t target exact trail w)
    (hs : Splits t target exact front back s) (hfound : s.found = false) (hexact : exact = true)
    (hd : t.duplicates = false) (hasc : t.Ascending (Way.front w ++ (front ++ back ++ Way.back w))) :
    (trail.sameKey || s.sameKey) = true ↔
      ∃ a ∈ Way.front w ++ (front ++ back ++ Way.back w),
        t.collation.compare target.key a.key = .eq := by
  have hleaf : t.Ascending back :=
    (List.pairwise_append.mp (List.pairwise_append.mp (List.pairwise_append.mp hasc).2.1).1).2.1
  have hhead := exists_sameKey_head hd hleaf (hs.missed hfound)
  have hway : t.Ascending (Way.front w ++ Way.back w) :=
    hasc.sublist ((List.sublist_append_right _ _).append_left _)
  rw [Bool.or_eq_true, h.sameKey hexact hd hway, hs.sameKey]
  simp only [List.mem_append, or_and_right, exists_or, hhead]
  grind

/-- A target that was missed in its leaf, but hit by a separator above, is that separator. -/
theorem Tells.ends_above {step : Step} {outer : List Step} (h : Tells t target exact trail w)
    (hfallback : trail.fallback = step :: outer)
    (hmissed : ∀ b ∈ back.head?, Entry.compare t.collation exact target b = .lt)
    (hless : ∀ a ∈ Way.front w ++ front, Entry.compare t.collation exact target a = .gt)
    (hx : Way.regrow w (.leaf pos (front ++ back)) = x) (hw : Way.Leads t.layout c 0 w pos)
    (honBoard : (Subtree.leaf pos (front ++ back)).OnBoard t.layout c.cells 0)
    (hfull : (Subtree.leaf pos (front ++ back)).Full)
    (hasc : t.loose.Ascending (Way.front w ++ (front ++ back ++ Way.back w)))
    (hstate : d.state = .onKey) (hbranch : d.onBranch = true) (hpath : d.path = step :: outer)
    (hblock : d.block = step.block) (hindex : d.index = step.index) :
    SearchEnds t c target exact x d := by
  obtain ⟨inner, f, outer', e, y, right, rfl, hinner, hsteps, hright, he⟩ :=
    h.fallback (hfallback ▸ List.cons_ne_nil _ _)
  have hmem : e ∈ Way.back (inner ++ f :: outer') := by simp [Way.back_append, Fork.back, hright]
  -- what is behind the target in the leaf would be greater than the separator that is a hit
  have hback : back = [] := by
    cases back with
    | nil => rfl
    | cons b back =>
      have hb := hmissed b (by simp)
      have hprecedes : t.loose.precedes b e :=
        (List.pairwise_append.mp (List.pairwise_append.mp hasc).2.1).2.2 b (by simp) e hmem
      cases (lt_of_lt_of_precedes hprecedes hb).symm.trans he
  have hinnerback := Way.back_eq_nil hinner
  obtain ⟨hy, hyfull, hwy⟩ := Way.Leads.regrow_append (v := inner) hw honBoard hfull
  rw [hfallback] at hsteps
  simp only [Way.steps_cons, List.cons.injEq] at hsteps
  obtain ⟨rfl, rfl⟩ := hsteps
  refine .branch (f := f) ((Way.regrow_append _ _ _).symm.trans hx) hwy hy hyfull hright
    (fun a ha => hless a ?_) (fun _ a ha => hless a ?_) he hstate hbranch hpath hblock hindex
  · simp only [Way.front_append] at ha ⊢
    grind
  · simp only [Way.entries_regrow, hinnerback, hback, Way.front_append, Subtree.leaf] at ha ⊢
    grind

/-- Where a search ends that has missed its target. -/
theorem acts_endInLeaf_missed (htrail : Tells t target exact trail w)
    (hs : Splits t target exact front back s) (hfound : s.found = false) (hnone : trail.fallback = [])
    (hx : Way.regrow w (.leaf pos (front ++ back)) = x) (hw : Way.Leads t.layout c 0 w pos)
    (honBoard : (Subtree.leaf pos (front ++ back)).OnBoard t.layout c.cells 0)
    (hfull : (Subtree.leaf pos (front ++ back)).Full)
    (hless : ∀ a ∈ Way.front w ++ front, Entry.compare t.collation exact target a = .gt)
    (hentries : x.entries = Way.front w ++ (front ++ back ++ Way.back w))
    (hasc : t.loose.Ascending (Way.front w ++ (front ++ back ++ Way.back w))) :
    Program.Acts t.layout (t.endInLeaf trail pos s (front ++ back).length) c fun r d =>
      d = c ∧ ∃ place, r = .ok place ∧ SearchEnds t c target exact x place := by
  have hcell : c.cells pos = some (.node (.leaf (front ++ back))) := honBoard.cell
  have hgreater := htrail.greater_leaf hnone hasc (hs.missed hfound)
  have hkey : exact = true → t.duplicates = false → t.Ascending x.entries →
      ((trail.sameKey || s.sameKey) = true ↔
        ∃ a ∈ x.entries, t.collation.compare target.key a.key = .eq) := by
    intro hexact hd hstrict
    rw [hentries] at hstrict ⊢
    exact htrail.sameKey_leaf hs hfound hexact hd hstrict
  have hhere : ∀ place : Descent, place.state ≠ .onKey → place.path = trail.path →
      place.leafEnd = none → place.onBranch = false → place.block = pos →
      place.index = s.index → place.sameKey = (trail.sameKey || s.sameKey) →
      (place.state = .beforeFirst ↔ Way.front w ++ front = []) →
      (place.state = .afterLast ↔ back ++ Way.back w = []) →
      (back = [] → place.state = .afterLast) → SearchEnds t c target exact x place := by
    intro place hstate hpath hend hbranch hblock hindex hsame hfirst hlast hnil
    exact .missing hx hw honBoard hfull hless hgreater hstate (hpath.trans htrail.path)
      (.inr ⟨hend, hbranch, hblock, hindex.trans hs.index⟩) (by simp [hblock, hcell])
      (hsame ▸ hkey) hfirst hlast (fun _ => hnil) fun h => absurd hend h
  have hsize : front.length + back.length ≠ 0 := by
    have := Subtree.full_leaf.mp hfull
    rwa [← List.length_append, Ne, List.length_eq_zero_iff]
  obtain ⟨hfirst, hlast⟩ := state_of_missed hfound hs.index hsize
  rw [List.length_eq_zero_iff] at hfirst hlast
  have hleftmost := htrail.leftmost hnone
  have hrightmost := htrail.rightmost hnone
  unfold endInLeaf
  simp only [hfound, hnone, List.length_append]
  cases hstate : s.state (front.length + back.length) with
  | onKey =>
    rw [state_eq_onKey hstate] at hfound
    cases hfound
  | between =>
    simp only [hstate, reduceCtorEq, false_iff] at hfirst hlast
    exact Program.acts_done ⟨rfl, _, rfl, hhere _ (fun h => by cases h) rfl rfl rfl rfl rfl rfl
      (by simp [hfirst]) (by simp [hlast]) fun hnil => absurd hnil hlast⟩
  | beforeFirst =>
    simp only [hstate, reduceCtorEq, true_iff, false_iff] at hfirst hlast
    refine Program.acts_done ⟨rfl, _, rfl, ?_⟩
    split
    · next hleft =>
      exact hhere _ (fun h => by cases h) rfl rfl rfl rfl rfl rfl
        (by simp [hfirst, hleftmost.mp hleft]) (by simp [hlast]) fun hnil => absurd hnil hlast
    · next hleft =>
      rw [hleftmost] at hleft
      exact hhere _ (fun h => by cases h) rfl rfl rfl rfl rfl rfl (by simp [hleft])
        (by simp [hlast]) fun hnil => absurd hnil hlast
  | afterLast =>
    simp only [hstate, reduceCtorEq, true_iff, false_iff] at hfirst hlast
    dsimp only
    split
    · next hright =>
      exact Program.acts_done ⟨rfl, _, rfl, hhere _ (fun h => by cases h) rfl rfl rfl rfl rfl rfl
        (by simp [hfirst]) (by simp [hlast, hrightmost.mp hright]) fun _ => rfl⟩
    · next hright =>
      rw [hrightmost] at hright
      have hindex := state_eq_afterLast hstate
      refine (acts_successor_leafEnd hw honBoard rfl htrail.path rfl
        (hindex.trans (List.length_append ..).symm)).bind ?_ ?_
      · rintro e d ⟨-, place, hr, -⟩
        cases hr
      · rintro place d ⟨rfl, place', hr, hpath, hend, hsame, hblock, hcase⟩
        cases hr
        obtain ⟨-, hnil⟩ | ⟨-, -, hcontinues⟩ := hcase
        · exact absurd hnil hright
        · exact Program.acts_done ⟨rfl, _, rfl, .missing hx hw honBoard hfull hless hgreater
            (fun h => by cases h) (hpath.trans htrail.path) (.inl ⟨hend, hlast⟩) hblock (hsame ▸ hkey)
            (by simp [hfirst]) (by simp [hright]) (fun hnone => by simp [hend] at hnone)
            fun _ => hcontinues⟩

theorem acts_endInLeaf (htrail : Tells t target exact trail w) (hx : Way.regrow w (.leaf pos es) = x)
    (hw : Way.Leads t.layout c 0 w pos) (honBoard : (Subtree.leaf pos es).OnBoard t.layout c.cells 0)
    (hfull : (Subtree.leaf pos es).Full) (hasc : t.loose.Ascending x.entries) :
    Program.Acts t.layout (t.endInLeaf trail pos (t.scan target exact es) es.length) c fun r d =>
      d = c ∧ ∃ place, r = .ok place ∧ SearchEnds t c target exact x place := by
  obtain ⟨front, back, rfl, hs⟩ := exists_splits t target exact es
  have hentries : x.entries = Way.front w ++ (front ++ back ++ Way.back w) := by
    rw [← hx, Way.entries_regrow]
    rfl
  rw [hentries] at hasc
  generalize t.scan target exact (front ++ back) = s at hs ⊢
  have hless : ∀ a ∈ Way.front w ++ front, Entry.compare t.collation exact target a = .gt := by
    intro a ha
    rcases List.mem_append.mp ha with ha | ha
    · exact htrail.less a ha
    · exact hs.less a ha
  cases hfound : s.found with
  | true =>
    obtain ⟨e, rest, rfl, he⟩ := hs.found hfound
    unfold endInLeaf
    simp only [hfound, Scan.state, if_true]
    exact Program.acts_done ⟨rfl, _, rfl, .leaf hx hw honBoard hless he rfl rfl htrail.path rfl
      hs.index⟩
  | false =>
    cases hfallback : trail.fallback with
    | cons step outer =>
      unfold endInLeaf
      simp only [hfound, hfallback]
      exact Program.acts_done ⟨rfl, _, rfl, htrail.ends_above hfallback (hs.missed hfound) hless hx hw
        honBoard hfull hasc rfl rfl rfl rfl rfl⟩
    | nil =>
      exact acts_endInLeaf_missed htrail hs hfound hfallback hx hw honBoard hfull hless hentries hasc

end Leaf

/-- A search knows as much one level further down. -/
theorem Tells.down {f : Fork} {s : Scan} (h : Tells t target exact trail w)
    (hs : Splits t target exact (f.left.map Prod.snd) (f.right.map Prod.fst) s)
    (hforked : f.subtrees ≠ [])
    (hgo : (s.found && (exact || !t.duplicates)) = false)
    (hasc : t.loose.Ascending (f.front ++ f.back ++ Way.back w)) :
    Tells t target exact {
      path := Way.steps (f :: w)
      sameKey := trail.sameKey || s.sameKey
      leftmost := trail.leftmost && s.state (f.left.length + f.right.length) == .beforeFirst
      rightmost := trail.rightmost && s.state (f.left.length + f.right.length) == .afterLast
      fallback := if s.found then Way.steps (f :: w) else trail.fallback } (f :: w) := by
  have hforks := List.pairwise_append.mp hasc
  have hfork := List.pairwise_append.mp hforks.1
  -- without a hit so far, the states of the blocks tell whether the way keeps to an edge
  have hedges : (if s.found then Way.steps (f :: w) else trail.fallback) = [] →
      trail.fallback = [] ∧ (s.state (f.left.length + f.right.length) = .beforeFirst ↔ f.left = []) ∧
        (s.state (f.left.length + f.right.length) = .afterLast ↔ f.right = []) := by
    intro hnil
    have hsize : f.left.length + f.right.length ≠ 0 := by
      intro hzero
      refine hforked ?_
      unfold Fork.subtrees
      rw [List.length_eq_zero_iff.mp (Nat.eq_zero_of_add_eq_zero_right hzero),
        List.length_eq_zero_iff.mp (Nat.eq_zero_of_add_eq_zero_left hzero)]
      rfl
    cases hfound : s.found with
    | true => simp [hfound] at hnil
    | false =>
      have hstates := state_of_missed hfound (hs.index.trans (List.length_map _)) hsize
      rw [List.length_eq_zero_iff, List.length_eq_zero_iff] at hstates
      simp only [hfound, Bool.false_eq_true, if_false] at hnil
      exact ⟨hnil, hstates⟩
  refine ⟨rfl, fun a ha => ?_, fun hnil a ha => ?_, fun hfallback => ?_, fun hexact hd hstrict => ?_,
    fun hnil => ?_, fun hnil => ?_⟩
  · rcases List.mem_append.mp ha with ha | ha
    · exact h.less a ha
    · exact front_gt (t := t.loose) hfork.1 hs.less ha
  · cases hfound : s.found with
    | true => simp [hfound] at hnil
    | false =>
      simp only [hfound, Bool.false_eq_true, if_false] at hnil
      rcases List.mem_append.mp ha with ha | ha
      · exact lt_of_head (t := t.loose) hfork.2.1 (head_back ▸ hs.missed hfound) ha
      · exact h.greater hnil a ha
  · cases hfound : s.found with
    | true =>
      obtain ⟨e, rest, hright, he⟩ := hs.found hfound
      obtain ⟨⟨e, y⟩, right, hcons, rfl, -⟩ := List.map_eq_cons_iff.mp hright
      exact ⟨[], f, w, e, y, right, rfl, nofun, rfl, hcons, he⟩
    | false =>
      simp only [hfound, Bool.false_eq_true, if_false] at hfallback
      obtain ⟨inner, g, outer, e, y, right, rfl, hinner, hsteps, hright, he⟩ :=
        h.fallback hfallback
      refine ⟨f :: inner, g, outer, e, y, right, rfl, List.forall_mem_cons.mpr ⟨?_, hinner⟩, hsteps,
        hright, he⟩
      -- A separator behind the child would be greater than the one that is a hit.
      cases hcases : f.right with
      | nil => rfl
      | cons s' right' =>
        have hmissed := hs.missed hfound s'.1 (by simp [hcases])
        have hprecedes := hforks.2.2 s'.1 (by simp [Fork.back, hcases]) e
          (by simp [Way.back_append, Fork.back, hright])
        cases (lt_of_lt_of_precedes hprecedes hmissed).symm.trans he
  · have hfound : s.found = false := by simpa [hexact] using hgo
    obtain ⟨hfronts, hbacks, -⟩ := List.pairwise_append.mp hstrict
    have hfront := exists_sameKey_front hd (List.pairwise_append.mp hfronts).2.1 hs.less
    have hback := exists_sameKey_head hd (List.pairwise_append.mp hbacks).1
      (head_back ▸ hs.missed hfound)
    rw [head_back] at hback
    have hway : t.Ascending (Way.front w ++ Way.back w) :=
      hstrict.sublist ((List.sublist_append_left _ _).append (List.sublist_append_right _ _))
    rw [Bool.or_eq_true, h.sameKey hexact hd hway, hs.sameKey]
    simp only [Way.front_cons, Way.back_cons, List.mem_append, or_and_right, exists_or, hfront,
      hback]
    grind
  · obtain ⟨hnil, hleft, -⟩ := hedges hnil
    rw [Bool.and_eq_true, h.leftmost hnil, beq_iff_eq, hleft, Way.front_cons,
      List.append_eq_nil_iff, Fork.front_eq_nil_iff]
  · obtain ⟨hnil, -, hright⟩ := hedges hnil
    rw [Bool.and_eq_true, h.rightmost hnil, beq_iff_eq, hright, Way.back_cons,
      List.append_eq_nil_iff, Fork.back_eq_nil_iff, and_comm]

theorem acts_descend {whole : Subtree} {levels : Nat} (htrail : Tells t target exact trail w)
    (hx : Way.regrow w x = whole) (hw : Way.Leads t.layout c depth w x.pos)
    (honBoard : x.OnBoard t.layout c.cells depth) (hfull : x.Full)
    (hasc : t.loose.Ascending whole.entries) (hdepth : depth ≤ levels) :
    Program.Acts t.layout (t.descend target exact levels trail x.pos) c fun r d =>
      d = c ∧ ∃ place, r = .ok place ∧ SearchEnds t c target exact whole place := by
  induction depth generalizing levels trail w x with
  | zero =>
    cases honBoard with
    | @leaf pos es hcell hfits =>
      unfold descend
      refine (Program.acts_loadNode Role.current_ne hcell).bind_ok ?_
      exact acts_endInLeaf htrail hx hw (.leaf hcell hfits) hfull hasc
  | succ depth ih =>
    obtain ⟨b, hnode, hsplit⟩ := honBoard.split hfull
    obtain ⟨levels, rfl⟩ : ∃ n, levels = n + 1 := ⟨levels - 1, by omega⟩
    obtain ⟨front, back, hes, hs⟩ := exists_splits t target exact b.entries
    have hindex : front.length ≤ b.separators.length := by
      have := congrArg List.length hes
      simp only [Branch.entries, List.length_map, List.length_append] at this
      omega
    obtain ⟨f, y, hstep, hfill, hf, hy, hyfull⟩ := hsplit _ hindex
    obtain rfl : b = f.branch y.pos := by
      rw [← hfill, Fork.node_fill] at hnode
      exact (Node.branch.inj hnode).symm
    obtain ⟨hpos, hlen⟩ := Step.mk.inj hstep
    rw [Fork.entries_branch] at hes
    obtain ⟨rfl, rfl⟩ := List.append_inj hes (by simpa using hlen)
    have hentries : whole.entries =
        Way.front w ++ (f.front ++ (y.entries ++ f.back) ++ Way.back w) := by
      rw [← hx, Way.entries_regrow, ← hfill, Fork.entries_fill]
    have hx' : Way.regrow (f :: w) y = whole := by
      rw [← hx, ← hfill]
      rfl
    have hw' : Way.Leads t.layout c depth (f :: w) y.pos := ⟨hf, hpos ▸ hw⟩
    have hindex := hs.index
    rw [List.length_map] at hindex
    unfold descend
    refine (honBoard.acts_node Role.current_ne).bind_ok ?_
    rw [hnode]
    dsimp only
    generalize t.scan target exact (f.branch y.pos).entries = s at hs hindex ⊢
    rw [hindex, ← hpos, htrail.path, Fork.length_separators_branch]
    split
    · next hgo =>
      rw [Bool.and_eq_true] at hgo
      obtain ⟨e, rest, hright, he⟩ := hs.found hgo.1
      obtain ⟨⟨e, z⟩, right, hcons, rfl, -⟩ := List.map_eq_cons_iff.mp hright
      refine Program.acts_done ⟨rfl, _, rfl,
        .branch hx' hw' hy hyfull hcons (fun a ha => ?_) (fun hstrict a ha => ?_) he rfl rfl rfl rfl
          rfl⟩
      · rw [hentries] at hasc
        rw [Way.front_cons] at ha
        rcases List.mem_append.mp ha with ha | ha
        · exact htrail.less a ha
        · refine front_gt (t := t.loose) ?_ hs.less ha
          simp only [Ascending, List.pairwise_append] at hasc ⊢
          exact hasc.2.1.1.1
      · -- No entry in front of the separator compares equal to it.
        have hbehind : ∀ {u : Tree}, u.Ascending whole.entries → u.precedes a e := by
          intro u hu
          rw [hentries] at hu
          simp only [Ascending, List.pairwise_append] at hu
          exact hu.2.1.1.2.1.2.2 a ha e (by simp [Fork.back, hcons])
        have hlt : Entry.compare t.collation exact a e = .lt := by
          rcases hstrict with hexact | hstrict
          · exact lt_of_precedes (t := t.loose) (.inl hexact) (hbehind hasc)
          · exact lt_of_precedes (by simpa using hgo.2) (hbehind hstrict)
        exact Std.OrientedCmp.gt_of_lt
          (Std.TransCmp.lt_of_lt_of_eq hlt (Std.OrientedCmp.eq_symm he))
    · next hgo =>
      rw [Fork.child?_branch]
      refine ih (htrail.down hs hf.forked (by simpa using hgo) ?_) hx' hw' hy hyfull (by omega)
      rw [hentries] at hasc
      simp only [Ascending, List.pairwise_append, List.mem_append] at hasc ⊢
      grind

/-- A search in an empty tree ends nowhere. -/
theorem acts_locate_nil (hroot : c.pointers.root = .null) :
    Program.Acts t.layout (t.locate target exact) c fun r d => r = .ok {} ∧ d = c := by
  unfold locate root
  refine Program.Acts.bind_ok (Program.acts_getPointers.bind_ok (Program.acts_pure ⟨rfl, rfl⟩)) ?_
  rw [hroot]
  exact Program.acts_done ⟨rfl, rfl⟩

/-- A search ends at the first entry that is a hit, or where it would be. -/
theorem acts_locate (hroot : c.pointers.root = x.pos) (honBoard : x.OnBoard t.layout c.cells depth)
    (hfull : x.Full) (hasc : t.loose.Ascending x.entries) (hdepth : depth ≤ maxLevels)
    (hpos : x.pos ≠ .null) :
    Program.Acts t.layout (t.locate target exact) c fun r d =>
      d = c ∧ ∃ place, r = .ok place ∧ SearchEnds t c target exact x place := by
  unfold locate root
  refine Program.Acts.bind_ok (Program.acts_getPointers.bind_ok (Program.acts_pure ⟨rfl, rfl⟩)) ?_
  rw [hroot, BlockPos.isNull_eq_false hpos, if_neg Bool.false_ne_true]
  have htrail : Tells t target exact {} [] :=
    ⟨rfl, nofun, nofun, nofun, by simp, by simp, by simp⟩
  exact acts_descend htrail rfl hroot honBoard hfull hasc hdepth

end Place

end Tree

end PagedIndex
