/-!
# Recency lists

The order in which buffers were last used. Every buffer has a place of its own in an array; from the
place of a buffer in the list lead links to the buffer used next before it and to the one used next
after it, so that a buffer is brought to the front, or taken out, without a walk.

## Main definitions

* `Recency.Arena` — the places and the ends of the list.
* `Recency.Arena.Lists` — the links of an arena tell one order of buffers.
* `Recency.touch`, `Recency.remove` — a buffer is used, or is no longer tracked.
* `Recency.oldestFirst` — the tracked buffers, the one unused for longest in front.

## Main statements

* `Recency.Arena.Lists.touch`, `Recency.Arena.Lists.remove` — what becomes of the order.
* `Recency.Arena.Lists.oldestFirst` — a walk along the links follows the order.
-/

namespace PagedIndex

namespace Recency

structure Place where
  /-- The buffer used next after this one. -/
  newer : Option Nat := none
  /-- The buffer used next before this one. -/
  older : Option Nat := none
  linked : Bool := false
  deriving DecidableEq, Inhabited

/-- The places of all buffers, and the ends of the list. -/
structure Arena where
  places : Array Place
  newest : Option Nat := none
  oldest : Option Nat := none
  size : Nat := 0
  deriving DecidableEq, Inhabited

namespace Arena

def new (capacity : Nat) : Arena := { places := Array.replicate capacity {} }

def capacity (a : Arena) : Nat := a.places.size

def place (a : Arena) (i : Nat) : Place := a.places.getD i {}

def modify (a : Arena) (i : Nat) (f : Place → Place) : Arena :=
  { a with places := a.places.modify i f }

/-- Makes `older` what follows `newer?`, or what the list begins with. -/
def linkOlder (a : Arena) (newer? older : Option Nat) : Arena :=
  match newer? with
  | some i => a.modify i fun p => { p with older := older }
  | none => { a with newest := older }

/-- Makes `newer` what stands in front of `older?`, or what the list ends with. -/
def linkNewer (a : Arena) (older? newer : Option Nat) : Arena :=
  match older? with
  | some i => a.modify i fun p => { p with newer := newer }
  | none => { a with oldest := newer }

/-- Takes a buffer out of the list: its neighbours are linked to each other. -/
def unlink (a : Arena) (i : Nat) : Arena :=
  let p := a.place i
  let a := (a.linkOlder p.newer p.older).linkNewer p.older p.newer
  { a.modify i fun _ => {} with size := a.size - 1 }

/-- Puts a buffer that is not in the list in front of it. -/
def push (a : Arena) (i : Nat) : Arena :=
  let front := a.newest
  let a := a.modify i fun _ => { newer := none, older := front, linked := true }
  let a := match front with
    | some j => a.modify j fun p => { p with newer := some i }
    | none => a
  { a with newest := some i, oldest := a.oldest.or (some i), size := a.size + 1 }

/-- Brings a buffer to the front of the list. There is no place for a buffer beyond the array. -/
def touch (a : Arena) (i : Nat) : Arena :=
  if a.newest = some i ∨ a.capacity ≤ i then a
  else if (a.place i).linked then (a.unlink i).push i
  else a.push i

def remove (a : Arena) (i : Nat) : Arena :=
  if (a.place i).linked then a.unlink i else a

/-- The first `steps` buffers on the way from a buffer to those that were used after it. -/
def walk (a : Arena) : Nat → Option Nat → List Nat
  | 0, _ => []
  | _, none => []
  | steps + 1, some i => i :: a.walk steps (a.place i).newer

def oldestFirst (a : Arena) : List Nat := a.walk a.size a.oldest

/-! ## Rows of linked places -/

/-- The places of buffers that stand in a row, the newest one in front; `newer` and `older` are next
to the row. -/
def Row (a : Arena) (newer older : Option Nat) : List Nat → Prop
  | [] => True
  | i :: rest =>
    i < a.capacity ∧ a.place i = ⟨newer, rest.head?.or older, true⟩ ∧ Row a (some i) older rest

/-- The links tell one order of buffers, the one used last in front; the other places are empty. -/
structure Lists (a : Arena) (order : List Nat) : Prop where
  newest : a.newest = order.head?
  oldest : a.oldest = order.getLast?
  row : a.Row none none order
  nodup : order.Nodup
  size : a.size = order.length
  vacant : ∀ i, i ∉ order → a.place i = {}

variable {a b : Arena} {i j : Nat} {newer older other : Option Nat} {l front back order : List Nat}

@[simp] theorem capacity_new (n : Nat) : (new n).capacity = n := by simp [new, capacity]

@[simp] theorem place_new (n : Nat) : (new n).place i = {} := by
  simp only [new, place, Array.getD_eq_getD_getElem?, Array.getElem?_replicate]
  split <;> rfl

@[simp] theorem capacity_modify (f : Place → Place) : (a.modify i f).capacity = a.capacity := by
  simp [modify, capacity]

theorem place_modify_of_ne (f : Place → Place) (h : j ≠ i) : (a.modify i f).place j = a.place j := by
  simp [modify, place, Array.getElem?_modify, Ne.symm h]

theorem place_modify (f : Place → Place) (hi : i < a.capacity) :
    (a.modify i f).place j = if j = i then f (a.place j) else a.place j := by
  unfold capacity at hi
  by_cases hj : j = i
  · simp [modify, place, Array.getElem_modify, hj, hi]
  · simp [hj, place_modify_of_ne f hj]

theorem place_linkOlder (h : newer ≠ some i) : (a.linkOlder newer older).place i = a.place i := by
  cases newer with
  | none => rfl
  | some j => exact place_modify_of_ne _ (by grind)

theorem place_linkNewer (h : older ≠ some i) : (a.linkNewer older newer).place i = a.place i := by
  cases older with
  | none => rfl
  | some j => exact place_modify_of_ne _ (by grind)

@[simp] theorem oldest_linkOlder : (a.linkOlder newer older).oldest = a.oldest := by
  cases newer <;> rfl

@[simp] theorem newest_linkNewer : (a.linkNewer older newer).newest = a.newest := by
  cases older <;> rfl

@[simp] theorem size_linkOlder : (a.linkOlder newer older).size = a.size := by
  cases newer <;> rfl

@[simp] theorem size_linkNewer : (a.linkNewer older newer).size = a.size := by
  cases older <;> rfl

@[simp] theorem capacity_linkOlder : (a.linkOlder newer older).capacity = a.capacity := by
  cases newer <;> simp [linkOlder, capacity, modify]

@[simp] theorem capacity_linkNewer : (a.linkNewer older newer).capacity = a.capacity := by
  cases older <;> simp [linkNewer, capacity, modify]

@[simp] theorem capacity_unlink : (a.unlink i).capacity = a.capacity := by
  have hmodify : (a.unlink i).capacity =
      ((a.linkOlder (a.place i).newer (a.place i).older).linkNewer (a.place i).older
        (a.place i).newer).capacity := capacity_modify fun _ => {}
  simp [hmodify]

@[simp] theorem capacity_push : (a.push i).capacity = a.capacity := by
  unfold push
  cases a.newest <;> simp [capacity, modify]

@[simp] theorem capacity_touch : (a.touch i).capacity = a.capacity := by
  unfold touch
  split
  · rfl
  · split <;> simp

@[simp] theorem capacity_remove : (a.remove i).capacity = a.capacity := by
  unfold remove
  split <;> simp

theorem getLast?_cons_or : (i :: l).getLast?.or newer = l.getLast?.or (some i) := by
  cases l <;> simp [List.getLast?_cons]

namespace Row

theorem lt_capacity (h : a.Row newer older l) (hi : i ∈ l) : i < a.capacity := by
  induction l generalizing newer with
  | nil => cases hi
  | cons j rest ih =>
    obtain ⟨hj, -, hrest⟩ := h
    cases hi with
    | head => exact hj
    | tail _ hi => exact ih hrest hi

theorem linked (h : a.Row newer older l) (hi : i ∈ l) : (a.place i).linked = true := by
  induction l generalizing newer with
  | nil => cases hi
  | cons j rest ih =>
    obtain ⟨-, hj, hrest⟩ := h
    cases hi with
    | head => rw [hj]
    | tail _ hi => exact ih hrest hi

/-- A row stands as it did when its places do. -/
theorem congr (h : a.Row newer older l) (hcapacity : b.capacity = a.capacity)
    (hplace : ∀ i ∈ l, b.place i = a.place i) : b.Row newer older l := by
  induction l generalizing newer with
  | nil => trivial
  | cons j rest ih =>
    obtain ⟨hj, hlink, hrest⟩ := h
    refine ⟨hcapacity ▸ hj, (hplace j (by simp)).trans hlink, ih hrest ?_⟩
    intro i hi
    exact hplace i (by simp [hi])

theorem append : a.Row newer older (front ++ back) ↔
    a.Row newer (back.head?.or older) front ∧ a.Row (front.getLast?.or newer) older back := by
  induction front generalizing newer with
  | nil => simp [Row]
  | cons i rest ih =>
    have hhead : (rest ++ back).head?.or older = rest.head?.or (back.head?.or older) := by
      cases rest <;> simp
    simp only [List.cons_append, Row, ih, hhead, getLast?_cons_or, and_assoc]

/-- Another buffer comes to stand behind a row. -/
theorem linkOlder (h : a.Row newer older l) (hnodup : l.Nodup) :
    (a.linkOlder l.getLast? other).Row newer other l := by
  cases hlast : l.getLast? with
  | none => simp_all [Row]
  | some i =>
    obtain ⟨front, rfl⟩ := List.getLast?_eq_some_iff.mp hlast
    obtain ⟨hfront, hi, hlink, -⟩ := Row.append.mp h
    have hplace := a.place_modify (j := i) (fun p => { p with older := other }) hi
    refine Row.append.mpr ⟨hfront.congr capacity_linkOlder fun j hj => ?_, ?_⟩
    · apply place_linkOlder
      grind
    · simp [Row, Arena.linkOlder, hplace, hlink, hi]

/-- Another buffer comes to stand in front of a row. -/
theorem linkNewer (h : a.Row newer older l) (hnodup : l.Nodup) :
    (a.linkNewer l.head? other).Row other older l := by
  cases l with
  | nil => trivial
  | cons i rest =>
    obtain ⟨hi, hlink, hrest⟩ := h
    have hplace := a.place_modify (j := i) (fun p => { p with newer := other }) hi
    refine ⟨by simpa using hi, by simp [Arena.linkNewer, hplace, hlink], ?_⟩
    refine hrest.congr capacity_linkNewer fun j hj => ?_
    apply place_linkNewer
    grind

/-- A walk goes through a row and on from what stands in front of it. -/
theorem walk (h : a.Row newer older l) (steps : Nat) :
    a.walk (steps + l.length) (l.getLast?.or newer) = l.reverse ++ a.walk steps newer := by
  induction l generalizing newer steps with
  | nil => simp
  | cons i rest ih =>
    obtain ⟨-, hi, hrest⟩ := h
    have hsteps : steps + (i :: rest).length = steps + 1 + rest.length := by
      simp only [List.length_cons]
      omega
    rw [getLast?_cons_or, hsteps, ih hrest, Arena.walk, hi]
    simp

end Row

namespace Lists

theorem linked_iff (h : a.Lists order) : (a.place i).linked = true ↔ i ∈ order := by
  constructor
  · intro hlinked
    apply Decidable.byContradiction
    intro hi
    simp [h.vacant i hi] at hlinked
  · exact h.row.linked

/-- A walk along the links follows the order, from its end on. -/
theorem oldestFirst (h : a.Lists order) : a.oldestFirst = order.reverse := by
  have hwalk := h.row.walk 0
  simpa [Arena.oldestFirst, h.oldest, h.size, Arena.walk] using hwalk

theorem new (capacity : Nat) : (Arena.new capacity).Lists [] :=
  ⟨rfl, rfl, trivial, List.nodup_nil, rfl, fun _ _ => place_new capacity⟩

/-- Without a buffer, its neighbours stand next to each other. -/
theorem unlink (h : a.Lists (front ++ i :: back)) : (a.unlink i).Lists (front ++ back) := by
  obtain ⟨hfront, hi, hlink, hback⟩ := Row.append.mp h.row
  simp only [Option.or_none] at hlink hfront hback
  obtain ⟨hnodup, hnodup', hapart⟩ := List.nodup_append.mp h.nodup
  obtain ⟨hiback, hnodup'⟩ := List.nodup_cons.mp hnodup'
  have hifront : i ∉ front := fun hmem => hapart i hmem i (by simp) rfl
  have hlast : ∀ j, j ∉ front → front.getLast? ≠ some j :=
    fun j hj heq => hj (List.mem_of_getLast? heq)
  have hhead : ∀ j, j ∉ back → back.head? ≠ some j := fun j hj heq => hj (List.mem_of_head? heq)
  -- the links to the buffer are turned to its neighbours, one after the other
  let b := a.linkOlder front.getLast? back.head?
  let c := b.linkNewer back.head? front.getLast?
  have hunlink : a.unlink i = { c.modify i fun _ => {} with size := c.size - 1 } := by
    simp [Arena.unlink, hlink, b, c]
  have hplace : ∀ j, j ≠ i → (a.unlink i).place j = c.place j := by
    intro j hj
    rw [hunlink]
    exact place_modify_of_ne _ hj
  have hleft : c.Row none back.head? front := by
    apply (hfront.linkOlder hnodup).congr capacity_linkNewer
    intro j hj
    exact place_linkNewer (hhead j fun hmem => hapart j hj j (by simp [hmem]) rfl)
  have hright : c.Row front.getLast? none back := by
    refine Row.linkNewer (hback.congr capacity_linkOlder ?_) hnodup'
    intro j hj
    exact place_linkOlder (hlast j fun hmem => hapart j hmem j (by simp [hj]) rfl)
  have hrow : (a.unlink i).Row none none (front ++ back) := by
    rw [Row.append, Option.or_none, Option.or_none]
    have hcapacity : (a.unlink i).capacity = c.capacity := by simp [b, c]
    exact ⟨hleft.congr hcapacity fun j hj => hplace j (by grind),
      hright.congr hcapacity fun j hj => hplace j (by grind)⟩
  refine ⟨?_, ?_, hrow, by grind, ?_, fun j hj => ?_⟩
  · have hnewest : (a.unlink i).newest = b.newest := by simp [hunlink, modify, c]
    rw [hnewest]
    cases front with
    | nil => rfl
    | cons j rest =>
      have hkept : b.newest = a.newest := by simp [b, linkOlder, modify, List.getLast?_cons]
      simp [hkept, h.newest]
  · have holdest : (a.unlink i).oldest = c.oldest := by rw [hunlink, modify]
    rw [holdest]
    cases back with
    | nil => simp [c, linkNewer]
    | cons j rest =>
      have hkept : c.oldest = a.oldest := by simp [b, c, linkNewer, modify]
      simp [hkept, h.oldest, List.getLast?_cons]
  · have hsize := h.size
    simp [hunlink, modify, b, c, hsize]
  · by_cases hji : j = i
    · subst hji
      rw [hunlink]
      exact (place_modify _ (by simpa [b, c] using hi)).trans (if_pos rfl)
    · rw [hplace j hji, place_linkNewer (hhead j (by grind)), place_linkOlder (hlast j (by grind))]
      exact h.vacant j (by grind)

/-- A buffer that was not in the list comes to stand in front. -/
theorem push (h : a.Lists order) (hi : i < a.capacity) (hnew : i ∉ order) :
    (a.push i).Lists (i :: order) := by
  let b := a.modify i fun _ => { newer := none, older := order.head?, linked := true }
  have hhead : ∀ j, j ∉ order → order.head? ≠ some j := fun j hj heq => hj (List.mem_of_head? heq)
  -- only the newest buffer learns of the new one
  have hplace : ∀ j, (a.push i).place j = (b.linkNewer order.head? (some i)).place j := by
    intro j
    simp only [Arena.push, h.newest]
    cases order <;> rfl
  have hself : (a.push i).place i = ⟨none, order.head?, true⟩ := by
    rw [hplace, place_linkNewer (hhead i hnew)]
    exact (place_modify _ hi).trans (if_pos rfl)
  have hrow : (a.push i).Row (some i) none order := by
    have hkept : b.Row none none order := by
      apply h.row.congr (capacity_modify _)
      intro j hj
      exact place_modify_of_ne _ fun heq => hnew (heq ▸ hj)
    exact (hkept.linkNewer h.nodup).congr (by simp [b]) fun j _ => hplace j
  have hends : (a.push i).oldest = a.oldest.or (some i) ∧ (a.push i).size = a.size + 1 := by
    unfold Arena.push
    cases a.newest <;> exact ⟨rfl, rfl⟩
  refine ⟨rfl, ?_, ⟨by simpa using hi, by simpa using hself, hrow⟩,
    List.nodup_cons.mpr ⟨hnew, h.nodup⟩, by simp [hends, h.size], fun j hj => ?_⟩
  · rw [hends.1, h.oldest, List.getLast?_cons]
    cases order.getLast? <;> rfl
  · obtain ⟨hji, hj⟩ : j ≠ i ∧ j ∉ order := by simpa using hj
    rw [hplace, place_linkNewer (hhead j hj), place_modify_of_ne _ hji]
    exact h.vacant j hj

/-- A buffer of the order stands between others, and without it they follow each other. -/
theorem erase (h : a.Lists order) (hi : (a.place i).linked = true) :
    (a.unlink i).Lists (order.erase i) := by
  obtain ⟨front, back, rfl⟩ := List.append_of_mem (h.linked_iff.mp hi)
  have hfront : i ∉ front := by
    intro hmem
    exact (List.nodup_append.mp h.nodup).2.2 i hmem i (by simp) rfl
  rw [List.erase_append_right _ hfront, List.erase_cons_head]
  exact h.unlink

/-- A buffer that is used comes to stand in front. -/
theorem touch (h : a.Lists order) (hi : i < a.capacity) :
    (a.touch i).Lists (i :: order.erase i) := by
  unfold Arena.touch
  split
  · next hstay =>
    have hfront : order.head? = some i := by
      rw [← h.newest]
      exact hstay.resolve_right (by omega)
    obtain ⟨rest, rfl⟩ := List.head?_eq_some_iff.mp hfront
    rwa [List.erase_cons_head]
  · split
    · next hlinked =>
      apply (h.erase hlinked).push (by simpa using hi)
      exact fun hmem => (List.Nodup.mem_erase_iff h.nodup).mp hmem |>.1 rfl
    · next hlinked =>
      have hnew : i ∉ order := fun hmem => hlinked (h.linked_iff.mpr hmem)
      rw [List.erase_of_not_mem hnew]
      exact h.push hi hnew

/-- A buffer that is no longer tracked leaves the order. -/
theorem remove (h : a.Lists order) : (a.remove i).Lists (order.erase i) := by
  unfold Arena.remove
  split
  · next hlinked => exact h.erase hlinked
  · next hlinked =>
    rwa [List.erase_of_not_mem fun hmem => hlinked (h.linked_iff.mpr hmem)]

end Lists

end Arena

end Recency

/-- The tracked buffers in the order in which they were used. -/
structure Recency where
  arena : Recency.Arena
  lists : ∃ order, arena.Lists order

namespace Recency

variable {r : Recency} {i : Nat}

def new (capacity : Nat) : Recency := ⟨.new capacity, [], .new capacity⟩

instance : Inhabited Recency := ⟨new 0⟩

def capacity (r : Recency) : Nat := r.arena.capacity

/-- Makes a buffer the one used last. -/
def touch (r : Recency) (i : Nat) : Recency where
  arena := r.arena.touch i
  lists := by
    obtain ⟨order, h⟩ := r.lists
    by_cases hi : i < r.arena.capacity
    · exact ⟨_, h.touch hi⟩
    · exact ⟨order, by simpa [Arena.touch, Nat.not_lt.mp hi] using h⟩

def remove (r : Recency) (i : Nat) : Recency where
  arena := r.arena.remove i
  lists := r.lists.elim fun _ h => ⟨_, h.remove⟩

def oldestFirst (r : Recency) : List Nat := r.arena.oldestFirst

/-- The tracked buffers, the one used last in front. -/
def order (r : Recency) : List Nat := r.oldestFirst.reverse

def size (r : Recency) : Nat := r.arena.size

/-! ## The order -/

theorem lists_order (r : Recency) : r.arena.Lists r.order := by
  obtain ⟨order, h⟩ := r.lists
  have heq : r.order = order := by simp [Recency.order, oldestFirst, h.oldestFirst]
  rwa [heq]

/-- The links of an arena tell one order only. -/
theorem order_of_lists {order : List Nat} (h : r.arena.Lists order) : r.order = order := by
  simp [Recency.order, oldestFirst, h.oldestFirst]

theorem nodup_order (r : Recency) : r.order.Nodup := r.lists_order.nodup

theorem size_eq (r : Recency) : r.size = r.order.length := r.lists_order.size

theorem lt_capacity (hi : i ∈ r.order) : i < r.capacity := r.lists_order.row.lt_capacity hi

theorem mem_oldestFirst : i ∈ r.oldestFirst ↔ i ∈ r.order := List.mem_reverse.symm

@[simp] theorem order_new (n : Nat) : (new n).order = [] := order_of_lists (.new n)

theorem order_touch (hi : i < r.capacity) : (r.touch i).order = i :: r.order.erase i :=
  order_of_lists (r.lists_order.touch hi)

@[simp] theorem order_remove : (r.remove i).order = r.order.erase i :=
  order_of_lists r.lists_order.remove

@[simp] theorem capacity_new (n : Nat) : (new n).capacity = n := Arena.capacity_new n

@[simp] theorem capacity_touch : (r.touch i).capacity = r.capacity := Arena.capacity_touch

@[simp] theorem capacity_remove : (r.remove i).capacity = r.capacity := Arena.capacity_remove

end Recency

end PagedIndex
