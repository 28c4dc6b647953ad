/-!
# Chains of buffers

The buffers of each hash value are linked in a chain. An array has the first buffer of each chain,
and from a buffer a link leads to the one behind it; a buffer that holds nothing has no link. A
chain is followed from its first buffer on, and a buffer is taken out by turning the link that leads
to it.

## Main definitions

* `Chains` — the first buffers and the links.
* `Chains.chain` — the buffers of a hash value.
* `Chains.push`, `Chains.unlink` — a buffer comes in front of a chain, and is taken out of one.
* `Chains.Row` — the links lead through given buffers and end behind them.

## Main statements

* `Chains.Row.push`, `Chains.Row.unlink` — what becomes of a row.
* `Chains.Row.walk` — a walk along the links follows the row.
-/

namespace PagedIndex

def chainCount : Nat := 256

namespace Chains

/-- Where the chain of a buffer goes on. -/
structure Link where
  next : Option Nat
  deriving DecidableEq

end Chains

/-- The first buffers of all chains, and the links of all buffers that are in one. -/
structure Chains where
  heads : Vector (Option Nat) chainCount
  links : Array (Option Chains.Link)
  deriving Inhabited

namespace Chains

def new (capacity : Nat) : Chains where
  heads := Vector.replicate chainCount none
  links := Array.replicate capacity none

def capacity (a : Chains) : Nat := a.links.size

def head (a : Chains) (k : Fin chainCount) : Option Nat := a.heads[k]

def link? (a : Chains) (i : Nat) : Option Link := a.links.getD i none

def setHead (a : Chains) (k : Fin chainCount) (first : Option Nat) : Chains :=
  { a with heads := a.heads.set k.val first k.isLt }

def setLink (a : Chains) (i : Nat) (link : Option Link) : Chains :=
  { a with links := a.links.setIfInBounds i link }

/-- The first `steps` buffers from one on. A buffer without a link ends the walk. -/
def walk (a : Chains) : Nat → Option Nat → List Nat
  | 0, _ => []
  | _, none => []
  | steps + 1, some i =>
    match a.link? i with
    | none => []
    | some link => i :: a.walk steps link.next

/-- The buffers of a hash value, the one that came last in front. No chain has more buffers than
there are. -/
def chain (a : Chains) (k : Fin chainCount) : List Nat := a.walk a.capacity (a.head k)

def push (a : Chains) (k : Fin chainCount) (i : Nat) : Chains :=
  (a.setLink i (some ⟨a.head k⟩)).setHead k (some i)

/-- Turns the link that leads to `i` to what is behind it. It is looked for among the next `steps`
buffers. -/
def bypass (a : Chains) (i : Nat) (behind : Option Nat) : Nat → Option Nat → Chains
  | 0, _ => a
  | _, none => a
  | steps + 1, some j =>
    match a.link? j with
    | none => a
    | some link =>
      if link.next = some i then a.setLink j (some ⟨behind⟩) else a.bypass i behind steps link.next

def unlink (a : Chains) (k : Fin chainCount) (i : Nat) : Chains :=
  match a.link? i with
  | none => a
  | some link =>
    let a :=
      if a.head k = some i then a.setHead k link.next
      else a.bypass i link.next a.capacity (a.head k)
    a.setLink i none

/-- The links lead from `start` through the buffers of a list, and end behind the last one. -/
def Row (a : Chains) : Option Nat → List Nat → Prop
  | start, [] => start = none
  | start, i :: rest => start = some i ∧ ∃ link, a.link? i = some link ∧ a.Row link.next rest

variable {a b : Chains} {k k' : Fin chainCount} {i j steps : Nat} {start first behind : Option Nat}
  {link : Option Link} {l front back : List Nat}

@[simp] theorem capacity_new (n : Nat) : (new n).capacity = n := by simp [new, capacity]

@[simp] theorem head_new (n : Nat) : (new n).head k = none := by simp [new, head]

@[simp] theorem capacity_setHead : (a.setHead k first).capacity = a.capacity := rfl

@[simp] theorem capacity_setLink : (a.setLink i link).capacity = a.capacity := by
  simp [setLink, capacity]

@[simp] theorem link?_setHead : (a.setHead k first).link? i = a.link? i := rfl

@[simp] theorem head_setLink : (a.setLink i link).head k = a.head k := rfl

theorem head_setHead : (a.setHead k first).head k' = if k' = k then first else a.head k' := by
  simp [setHead, head, Vector.getElem_set, Fin.ext_iff, eq_comm]

theorem link?_setLink (hi : i < a.capacity) :
    (a.setLink i link).link? j = if j = i then link else a.link? j := by
  simp only [setLink, link?, Array.getD_eq_getD_getElem?, Array.getElem?_setIfInBounds]
  by_cases h : j = i
  · have hsize : i < a.links.size := hi
    simp [h, hsize]
  · simp [h, Ne.symm h]

theorem link?_setLink_ne (hj : j ≠ i) : (a.setLink i link).link? j = a.link? j := by
  simp [setLink, link?, Ne.symm hj]

theorem lt_capacity_of_link? {x : Link} (h : a.link? i = some x) : i < a.capacity := by
  apply Decidable.byContradiction
  intro hge
  have hsize : a.links.size ≤ i := Nat.not_lt.mp hge
  simp [link?, hsize] at h

@[simp] theorem capacity_push : (a.push k i).capacity = a.capacity := by simp [push]

@[simp] theorem capacity_bypass : (a.bypass i behind steps start).capacity = a.capacity := by
  fun_induction bypass a i behind steps start <;> simp_all

@[simp] theorem head_bypass : (a.bypass i behind steps start).head k = a.head k := by
  fun_induction bypass a i behind steps start <;> simp_all

@[simp] theorem capacity_unlink : (a.unlink k i).capacity = a.capacity := by
  unfold unlink
  split
  · rfl
  · simp only [capacity_setLink]
    split <;> simp

namespace Row

/-- A row stands as it did when the links of its buffers do. -/
theorem congr (h : a.Row start l) (hlink : ∀ i ∈ l, b.link? i = a.link? i) : b.Row start l := by
  induction l generalizing start with
  | nil => exact h
  | cons i rest ih =>
    obtain ⟨hstart, x, hx, hrest⟩ := h
    exact ⟨hstart, x, by simp [hlink, hx], ih hrest fun j hj => hlink j (by simp [hj])⟩

theorem lt_capacity (h : a.Row start l) (hi : i ∈ l) : i < a.capacity := by
  induction l generalizing start with
  | nil => cases hi
  | cons j rest ih =>
    obtain ⟨-, x, hx, hrest⟩ := h
    cases hi with
    | head => exact lt_capacity_of_link? hx
    | tail _ hi => exact ih hrest hi

theorem walk (h : a.Row start l) (hsteps : l.length ≤ steps) : a.walk steps start = l := by
  induction l generalizing start steps with
  | nil =>
    obtain rfl : start = none := h
    cases steps <;> rfl
  | cons i rest ih =>
    obtain ⟨rfl, x, hx, hrest⟩ := h
    obtain ⟨steps, rfl⟩ : ∃ n, steps = n + 1 := ⟨steps - 1, by simp at hsteps; omega⟩
    simp only [Chains.walk, hx]
    rw [ih hrest (by simpa using hsteps)]

/-- A walk along the chain of a hash value follows its row. -/
theorem chain (h : a.Row (a.head k) l) (hnodup : l.Nodup) : a.chain k = l := by
  apply h.walk
  have hsub : l ⊆ List.range a.capacity := fun i hi => List.mem_range.mpr (h.lt_capacity hi)
  simpa using hnodup.length_le_of_subset hsub

/-- Behind the buffers in front of it a row goes on. -/
theorem drop (h : a.Row start (front ++ back)) : ∃ first, a.Row first back := by
  induction front generalizing start with
  | nil => exact ⟨start, h⟩
  | cons j rest ih =>
    obtain ⟨-, x, -, hrest⟩ := h
    exact ih hrest

/-- A buffer that was in no row comes in front of one, -/
theorem push (h : a.Row (a.head k) l) (hi : i < a.capacity) (hnew : i ∉ l) :
    (a.push k i).Row ((a.push k i).head k) (i :: l) := by
  refine ⟨by simp [Chains.push, head_setHead], ⟨a.head k⟩, ?_, h.congr fun j hj => ?_⟩
  · simp [Chains.push, link?_setLink hi]
  · exact link?_setLink_ne fun heq => hnew (heq ▸ hj)

/-- and the other rows stay as they are. -/
theorem push_ne (h : a.Row (a.head k') l) (hk : k' ≠ k) (hnew : i ∉ l) :
    (a.push k i).Row ((a.push k i).head k') l := by
  have hhead : (a.push k i).head k' = a.head k' := by simp [Chains.push, head_setHead, hk]
  rw [hhead]
  exact h.congr fun j hj => link?_setLink_ne fun heq => hnew (heq ▸ hj)

/-- The search for the link to a buffer comes to the buffer in front of it. -/
theorem bypass (h : a.Row start (front ++ i :: back)) (hnodup : (front ++ i :: back).Nodup)
    (hfront : front ≠ []) (hsteps : front.length ≤ steps) (hbehind : a.Row behind back) :
    (a.bypass i behind steps start).Row start (front ++ back) ∧
      ∀ j, j ∉ front → (a.bypass i behind steps start).link? j = a.link? j := by
  induction front generalizing start steps with
  | nil => exact absurd rfl hfront
  | cons m rest ih =>
    obtain ⟨rfl, x, hx, hrest⟩ := h
    obtain ⟨steps, rfl⟩ : ∃ n, steps = n + 1 := ⟨steps - 1, by simp at hsteps; omega⟩
    obtain ⟨hm, hnodup⟩ := List.nodup_cons.mp hnodup
    cases rest with
    | nil =>
      obtain ⟨hnext, -⟩ := hrest
      have hturned : a.bypass i behind (steps + 1) (some m) = a.setLink m (some ⟨behind⟩) := by
        simp [Chains.bypass, hx, hnext]
      rw [hturned]
      refine ⟨⟨rfl, ⟨behind⟩, ?_, hbehind.congr fun j hj => ?_⟩, fun j hj => ?_⟩
      · simp [link?_setLink (lt_capacity_of_link? hx)]
      · exact link?_setLink_ne (by grind)
      · exact link?_setLink_ne (by simpa using hj)
    | cons n rest =>
      have hnext : x.next ≠ some i := by
        rw [hrest.1]
        grind
      have hon : a.bypass i behind (steps + 1) (some m) = a.bypass i behind steps x.next := by
        simp [Chains.bypass, hx, hnext]
      obtain ⟨hrow, hlinks⟩ := ih hrest hnodup (by simp) (by simpa using hsteps)
      rw [hon]
      exact ⟨⟨rfl, x, (hlinks m (by grind)).trans hx, hrow⟩, fun j hj => hlinks j (by grind)⟩

/-- A buffer is taken out of its row, and the links of buffers that are not in it stay as they
are. -/
theorem unlink_parts (h : a.Row (a.head k) l) (hnodup : l.Nodup) (hi : i ∈ l) :
    (a.unlink k i).Row ((a.unlink k i).head k) (l.erase i) ∧
      (∀ j, j ∉ l → (a.unlink k i).link? j = a.link? j) ∧
      ∀ k', k' ≠ k → (a.unlink k i).head k' = a.head k' := by
  obtain ⟨front, back, rfl⟩ := List.append_of_mem hi
  have hlength : front.length ≤ a.capacity := by
    have hsub : front ⊆ List.range a.capacity := fun j hj =>
      List.mem_range.mpr (h.lt_capacity (by simp [hj]))
    simpa using (List.nodup_append.mp hnodup).1.length_le_of_subset hsub
  have hout : i ∉ front := fun hmem => (List.nodup_append.mp hnodup).2.2 i hmem i (by simp) rfl
  have herase : (front ++ i :: back).erase i = front ++ back := by
    rw [List.erase_append_right _ hout, List.erase_cons_head]
  have hback : i ∉ front ++ back := by grind
  obtain ⟨_, -, x, hx, hbehind⟩ := h.drop
  rw [herase]
  cases front with
  | nil =>
    have hhead : a.head k = some i := h.1
    have hunlink : a.unlink k i = (a.setHead k x.next).setLink i none := by
      simp [Chains.unlink, hx, hhead]
    rw [hunlink]
    refine ⟨?_, fun j hj => ?_, fun k' hk => ?_⟩
    · simp only [head_setLink, head_setHead, if_true]
      exact hbehind.congr fun j hj => link?_setLink_ne (by grind)
    · exact link?_setLink_ne (by grind)
    · simp [head_setHead, hk]
  | cons m rest =>
    have hhead : a.head k ≠ some i := by
      rw [h.1]
      grind
    have hunlink : a.unlink k i =
        (a.bypass i x.next a.capacity (a.head k)).setLink i none := by
      simp [Chains.unlink, hx, hhead]
    obtain ⟨hrow, hlinks⟩ := h.bypass hnodup (by simp) hlength hbehind
    rw [hunlink]
    refine ⟨?_, fun j hj => ?_, fun k' _ => by simp⟩
    · simp only [head_setLink, head_bypass]
      exact hrow.congr fun j hj => link?_setLink_ne fun heq => hback (heq ▸ hj)
    · rw [link?_setLink_ne (by grind), hlinks j (by grind)]

theorem unlink (h : a.Row (a.head k) l) (hnodup : l.Nodup) (hi : i ∈ l) :
    (a.unlink k i).Row ((a.unlink k i).head k) (l.erase i) :=
  (h.unlink_parts hnodup hi).1

/-- A row without a common buffer stays as it is. -/
theorem unlink_ne (h : a.Row (a.head k) l) (hnodup : l.Nodup) (hi : i ∈ l) {l' : List Nat}
    (h' : a.Row (a.head k') l') (hk : k' ≠ k) (hapart : ∀ j ∈ l', j ∉ l) :
    (a.unlink k i).Row ((a.unlink k i).head k') l' := by
  obtain ⟨-, hlinks, hheads⟩ := h.unlink_parts hnodup hi
  rw [hheads k' hk]
  exact h'.congr fun j hj => hlinks j (hapart j hj)

end Row

end Chains

end PagedIndex
